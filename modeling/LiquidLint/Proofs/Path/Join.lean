import LiquidLint.Path
import LiquidLint.Proofs.Directive.Reading

/-!
# Components of joined paths

A path is read by cutting its text at slashes. Joining a relative path to a directory puts its components
behind those of the directory, whether or not the text of the directory ends with a slash
(`components_join_of_relative`). Names without slashes that are joined by slashes are read back as they
are (`components_join`). A segment that is joined may also be empty or a dot, which adds nothing, or two
dots (`components_join_segment`).
-/

namespace LiquidLint

namespace Text

variable {p : Char → Bool} {s t : Text}

/-- Text without separators is one run. -/
theorem splitOn_of_forall (h : ∀ c ∈ t, p c = false) : splitOn p t = [t] := by
  induction t with
  | nil => rfl
  | cons c t ih =>
    obtain ⟨hc, ht⟩ := List.forall_mem_cons.1 h
    rw [splitOn, hc, ih ht]
    rfl

/-- The first run grows with a character that is no separator. -/
theorem splitOn_cons_of_not {c : Char} (hc : ¬ p c = true) (t : Text) :
    ∃ first rest, splitOn p t = first :: rest ∧ splitOn p (c :: t) = (c :: first) :: rest := by
  cases hrest : splitOn p t with
  | nil => exact absurd hrest (splitOn_ne_nil p t)
  | cons first rest =>
    refine ⟨first, rest, rfl, ?_⟩
    rw [splitOn, if_neg hc, hrest]

/-- No run has a separator in it. -/
theorem not_mem_of_mem_splitOn (h : s ∈ splitOn p t) : ∀ c ∈ s, p c = false := by
  induction t generalizing s with
  | nil =>
    rw [List.mem_singleton.1 h]
    exact List.forall_mem_nil _
  | cons c t ih =>
    by_cases hc : p c = true
    · rw [splitOn, if_pos hc] at h
      rcases List.mem_cons.1 h with rfl | h
      · exact List.forall_mem_nil _
      · exact ih h
    · obtain ⟨first, rest, ht, hct⟩ := splitOn_cons_of_not hc t
      rw [hct] at h
      rw [ht] at ih
      rcases List.mem_cons.1 h with rfl | h
      · exact List.forall_mem_cons.2 ⟨Bool.eq_false_iff.2 hc, ih List.mem_cons_self⟩
      · exact ih (List.mem_cons_of_mem _ h)

/-- How many characters some runs take up, each with what ends it. -/
def extent : List Text → Nat
  | [] => 0
  | s :: ss => s.length + 1 + extent ss

theorem extent_splitOn (p : Char → Bool) (t : Text) : extent (splitOn p t) = t.length + 1 := by
  induction t with
  | nil => rfl
  | cons c t ih =>
    by_cases hc : p c = true
    · rw [splitOn, if_pos hc, extent, ih, List.length_cons, List.length_nil]
      omega
    · obtain ⟨first, rest, ht, hct⟩ := splitOn_cons_of_not hc t
      rw [ht, extent] at ih
      rw [hct, extent, List.length_cons, List.length_cons]
      omega

end Text

namespace Path

/-- A name that stands for itself in a path. -/
structure IsName (n : String) : Prop where
  ne_empty : n ≠ ""
  ne_here : n ≠ "."
  ne_up : n ≠ ".."
  no_slash : '/' ∉ n.toList

instance (n : String) : Decidable (IsName n) :=
  decidable_of_iff (n ≠ "" ∧ n ≠ "." ∧ n ≠ ".." ∧ '/' ∉ n.toList)
    ⟨fun ⟨h1, h2, h3, h4⟩ => ⟨h1, h2, h3, h4⟩, fun ⟨h1, h2, h3, h4⟩ => ⟨h1, h2, h3, h4⟩⟩

variable {p : Path} {names : List String}

/-- The text of names divided by slashes. -/
def ofNames (names : List String) : Path := ⟨String.intercalate "/" names⟩

/-- The component for a leading slash. -/
def rootOf (t : Text) : List Component := if t.head? = some '/' then [.root] else []

/-- The components of segments, the first of which starts at index `i`. -/
def componentsFrom (i : Nat) (segments : List Text) : List Component :=
  (piecesFrom i segments).map (·.component)

/-- A leading slash is a piece of its own, before those of the segments. -/
theorem pieces_eq (p : Path) :
    p.pieces = (if p.text.toList.head? = some '/' then [⟨.root, 0, 1⟩] else []) ++
      piecesFrom 0 (Text.splitOn (· == '/') p.text.toList) := by
  unfold pieces
  dsimp only
  split
  · rename_i rest heq
    rw [heq]
    rfl
  · rename_i hslash
    have hhead : p.text.toList.head? ≠ some '/' := by
      intro h
      obtain ⟨rest, hrest⟩ := List.head?_eq_some_iff.1 h
      exact hslash rest hrest
    rw [if_neg hhead]
    rfl

theorem components_eq (p : Path) :
    p.components = rootOf p.text.toList ++
      componentsFrom 0 (Text.splitOn (· == '/') p.text.toList) := by
  unfold components rootOf componentsFrom
  rw [pieces_eq, List.map_append]
  split <;> rfl

/-- The pieces of more segments are those of the first, then those of the rest. -/
theorem piecesFrom_append (i : Nat) (ss ts : List Text) :
    piecesFrom i (ss ++ ts) = piecesFrom i ss ++ piecesFrom (i + Text.extent ss) ts := by
  induction ss generalizing i with
  | nil => rfl
  | cons s ss ih =>
    -- the first segment moves the start of the rest, whatever piece it makes itself
    have hoffset : i + s.length + 1 + Text.extent ss = i + Text.extent (s :: ss) := by
      rw [Text.extent]
      omega
    have hrest := ih (i + s.length + 1)
    rw [hoffset] at hrest
    -- the pieces of `ts` are the same on both sides and are not looked into
    generalize piecesFrom (i + Text.extent (s :: ss)) ts = last at hrest ⊢
    rw [List.cons_append]
    unfold piecesFrom
    dsimp only
    split
    · exact hrest
    · split
      · exact congrArg (_ :: ·) hrest
      · exact hrest
    · exact congrArg (_ :: ·) hrest
    · exact congrArg (_ :: ·) hrest

theorem exists_componentsFrom_append (i : Nat) (ss ts : List Text) :
    ∃ j, componentsFrom i (ss ++ ts) = componentsFrom i ss ++ componentsFrom j ts := by
  refine ⟨i + Text.extent ss, ?_⟩
  unfold componentsFrom
  rw [piecesFrom_append, List.map_append]

/-- A name is a piece as it is, wherever it stands. -/
theorem piecesFrom_cons_of_isName {n : String} (hn : IsName n) (i : Nat) (ss : List Text) :
    piecesFrom i (n.toList :: ss) =
      ⟨.name n, i, i + n.toList.length⟩ :: piecesFrom (i + n.toList.length + 1) ss := by
  have hback : ∀ s : String, n.toList = s.toList → n = s := by
    intro s hs
    rw [← String.ofList_toList (s := n), hs, String.ofList_toList]
  generalize hrest : piecesFrom (i + n.toList.length + 1) ss = rest
  unfold piecesFrom
  dsimp only
  rw [hrest]
  split
  · rename_i heq
    exact absurd (hback "" heq) hn.ne_empty
  · rename_i heq
    exact absurd (hback "." heq) hn.ne_here
  · rename_i heq
    exact absurd (hback ".." heq) hn.ne_up
  · rw [String.ofList_toList]

/-- Names are components as they are, wherever they stand. -/
theorem componentsFrom_names (i : Nat) (h : ∀ n ∈ names, IsName n) :
    componentsFrom i (names.map String.toList) = names.map .name := by
  induction names generalizing i with
  | nil => rfl
  | cons n names ih =>
    obtain ⟨hn, hrest⟩ := List.forall_mem_cons.1 h
    have hlater := ih (i + n.toList.length + 1) hrest
    unfold componentsFrom at hlater ⊢
    rw [List.map_cons, piecesFrom_cons_of_isName hn, List.map_cons, hlater, List.map_cons]

theorem splitOn_ofNames (hne : names ≠ []) (h : ∀ n ∈ names, IsName n) :
    Text.splitOn (· == '/') (ofNames names).text.toList = names.map String.toList := by
  have hone : ∀ n, IsName n → Text.splitOn (· == '/') n.toList = [n.toList] := by
    intro n hn
    refine Text.splitOn_of_forall fun c hc => ?_
    rw [beq_eq_false_iff_ne]
    rintro rfl
    exact hn.no_slash hc
  show Text.splitOn _ (String.intercalate "/" names).toList = _
  rw [String.toList_intercalate]
  induction names with
  | nil => exact absurd rfl hne
  | cons n names ih =>
    obtain ⟨hn, hrest⟩ := List.forall_mem_cons.1 h
    cases names with
    | nil => simpa using hone n hn
    | cons m names =>
      have hlater := ih (List.cons_ne_nil m names) hrest
      rw [List.map_cons, List.map_cons, List.intercalate_cons_cons, List.append_assoc]
      show Text.splitOn _
        (n.toList ++ '/' :: List.intercalate "/".toList ((m :: names).map String.toList)) = _
      rw [Text.splitOn_append_cons rfl, hone n hn, hlater]
      rfl

theorem head?_ofNames (hne : names ≠ []) (h : ∀ n ∈ names, IsName n) :
    (ofNames names).text.toList.head? ≠ some '/' := by
  intro hhead
  obtain ⟨rest, hrest⟩ := List.head?_eq_some_iff.1 hhead
  -- a slash at the start would leave an empty name
  have hsplit := splitOn_ofNames hne h
  rw [hrest] at hsplit
  obtain ⟨n, others, rfl⟩ := List.exists_cons_of_ne_nil hne
  have hfirst : ([] : Text) = n.toList := by
    rw [List.map_cons] at hsplit
    exact (List.cons.inj hsplit).1
  apply (h n (List.mem_cons_self ..)).ne_empty
  rw [← String.ofList_toList (s := n), ← hfirst]

/-- **Names are read back.** -/
theorem components_ofNames (hne : names ≠ []) (h : ∀ n ∈ names, IsName n) :
    (ofNames names).components = names.map .name := by
  rw [components_eq, splitOn_ofNames hne h, componentsFrom_names 0 h, rootOf,
    if_neg (head?_ofNames hne h), List.nil_append]

/-- The text of a joined path and the components of the directory, whether or not the text of the
directory ends with a slash. -/
theorem exists_text_join {q : Path} (hp : p.text.isEmpty = false) (hq : q.isAbsolute = false) :
    ∃ s : Text, (p.join q).text.toList = s ++ '/' :: q.text.toList ∧
      p.components = rootOf (s ++ ['/']) ++ componentsFrom 0 (Text.splitOn (· == '/') s) := by
  unfold join
  rw [hq, hp, Bool.false_or, if_neg (by simp)]
  split
  · rename_i hslash
    obtain ⟨s, hs⟩ := List.getLast?_eq_some_iff.1 (beq_iff_eq.1 hslash)
    refine ⟨s, ?_, ?_⟩
    · show (p.text ++ _).toList = _
      rw [String.toList_append, hs]
      simp
    · -- after the last slash comes an empty segment, which is no component
      obtain ⟨j, hj⟩ := exists_componentsFrom_append 0 (Text.splitOn (· == '/') s) [[]]
      have hsplit : Text.splitOn (· == '/') (s ++ ['/']) = Text.splitOn (· == '/') s ++ [[]] :=
        Text.splitOn_append_cons rfl s []
      rw [components_eq, hs, hsplit, hj]
      exact congrArg (rootOf (s ++ ['/']) ++ ·) (List.append_nil _)
  · refine ⟨p.text.toList, ?_, ?_⟩
    · show (p.text ++ "/" ++ _).toList = _
      rw [String.toList_append, String.toList_append]
      simp
    · have hnil : p.text.toList ≠ [] := by
        intro hnil
        rw [← String.ofList_toList (s := p.text), hnil] at hp
        cases hp
      rw [components_eq, rootOf, rootOf, List.head?_append_of_ne_nil _ hnil]

theorem isAbsolute_ofNames (hne : names ≠ []) (h : ∀ n ∈ names, IsName n) :
    (ofNames names).isAbsolute = false := by
  unfold isAbsolute
  rw [beq_eq_false_iff_ne]
  exact head?_ofNames hne h

theorem rootOf_append_cons (s : Text) (t : Text) : rootOf (s ++ '/' :: t) = rootOf (s ++ ['/']) := by
  unfold rootOf
  cases s <;> rfl

/-! ### Segment by segment -/

variable {s : Text} {i : Nat}

theorem componentsFrom_cons (i : Nat) (s : Text) (ss : List Text) :
    componentsFrom i (s :: ss) = componentsFrom i [s] ++ componentsFrom (i + (s.length + 1)) ss := by
  unfold componentsFrom
  rw [← List.singleton_append, piecesFrom_append, List.map_append]
  rfl

/-- One segment, which is a component unless it is empty or a dot behind the start. -/
theorem componentsFrom_singleton (i : Nat) (s : Text) : componentsFrom i [s] =
    if s = [] then [] else if s = ['.'] then (if i = 0 then [.here] else [])
    else if s = ['.', '.'] then [.up] else [.name (String.ofList s)] := by
  unfold componentsFrom piecesFrom
  dsimp only
  split
  · rfl
  · by_cases hi : i = 0 <;> simp [hi, piecesFrom]
  · rfl
  · rename_i h1 h2 h3
    rw [if_neg h1, if_neg h2, if_neg h3]
    rfl

theorem componentsFrom_of_pos (hi : 0 < i) (ss : List Text) :
    componentsFrom i ss = ss.flatMap fun s => componentsFrom 1 [s] := by
  induction ss generalizing i with
  | nil => rfl
  | cons s ss ih =>
    rw [componentsFrom_cons, ih (by omega), List.flatMap_cons, componentsFrom_singleton,
      componentsFrom_singleton, if_neg (Nat.pos_iff_ne_zero.1 hi)]
    rfl

theorem here_not_mem_componentsFrom (hi : 0 < i) (ss : List Text) :
    Component.here ∉ componentsFrom i ss := by
  rw [componentsFrom_of_pos hi]
  intro hmem
  obtain ⟨s, -, hs⟩ := List.mem_flatMap.1 hmem
  rw [componentsFrom_singleton] at hs
  split at hs
  · cases hs
  · split at hs
    · cases hs
    · split at hs <;> cases List.mem_singleton.1 hs

/-! ### Joining -/

/-- **A relative path** adds its components behind those of the directory, without a leading dot. -/
theorem components_join_of_relative {q : Path} (hp : p.text.isEmpty = false)
    (hq : q.isAbsolute = false) : (p.join q).components =
      p.components ++ componentsFrom 1 (Text.splitOn (· == '/') q.text.toList) := by
  obtain ⟨s, hjoin, hcomponents⟩ := exists_text_join hp hq
  have hpos : 0 < 0 + Text.extent (Text.splitOn (· == '/') s) := by
    rw [Text.extent_splitOn]
    omega
  have hbehind (ss : List Text) : componentsFrom 0 (Text.splitOn (· == '/') s ++ ss) =
      componentsFrom 0 (Text.splitOn (· == '/') s) ++ componentsFrom 1 ss := by
    rw [componentsFrom_of_pos Nat.one_pos, ← componentsFrom_of_pos hpos]
    unfold componentsFrom
    rw [piecesFrom_append, List.map_append]
  rw [components_eq, hjoin, Text.splitOn_append_cons rfl, hbehind, rootOf_append_cons, hcomponents,
    List.append_assoc]

/-- What a path is joined to counts by its components only. -/
theorem components_join_congr {p' : Path} (hp : p.text.isEmpty = false) (hp' : p'.text.isEmpty = false)
    (h : p.components = p'.components) (q : Path) :
    (p.join q).components = (p'.join q).components := by
  by_cases hq : q.isAbsolute = true
  · unfold join
    rw [hq, Bool.true_or, Bool.true_or, if_pos rfl, if_pos rfl]
  · rw [Bool.not_eq_true] at hq
    rw [components_join_of_relative hp hq, components_join_of_relative hp' hq, h]

/-- **Joined names** come behind the components of the directory. -/
theorem components_join (hp : p.text.isEmpty = false) (hne : names ≠ [])
    (h : ∀ n ∈ names, IsName n) :
    (p.join (ofNames names)).components = p.components ++ names.map .name := by
  rw [components_join_of_relative hp (isAbsolute_ofNames hne h), splitOn_ofNames hne h,
    componentsFrom_names 1 h]

/-! ### One segment -/

theorem components_segment (hs : ∀ c ∈ s, (c == '/') = false) :
    (Path.mk (String.ofList s)).components = componentsFrom 0 [s] := by
  have hroot : rootOf s = [] := by
    unfold rootOf
    cases s with
    | nil => rfl
    | cons c s =>
      rw [if_neg]
      intro hhead
      have hc := hs c List.mem_cons_self
      rw [Option.some.inj hhead] at hc
      cases hc
  rw [components_eq, String.toList_ofList, Text.splitOn_of_forall hs, hroot, List.nil_append]

theorem components_join_segment (hp : p.text.isEmpty = false) (hs : ∀ c ∈ s, (c == '/') = false) :
    (p.join ⟨String.ofList s⟩).components = p.components ++ componentsFrom 1 [s] ∧
      '/' ∈ (p.join ⟨String.ofList s⟩).text.toList := by
  have habsolute : (Path.mk (String.ofList s)).isAbsolute = false := by
    unfold isAbsolute
    rw [String.toList_ofList, beq_eq_false_iff_ne]
    intro hhead
    obtain ⟨rest, rfl⟩ := List.head?_eq_some_iff.1 hhead
    have := hs '/' List.mem_cons_self
    cases this
  refine ⟨?_, ?_⟩
  · rw [components_join_of_relative hp habsolute, String.toList_ofList, Text.splitOn_of_forall hs]
  · obtain ⟨t, hjoin, -⟩ := exists_text_join hp habsolute
    rw [hjoin]
    exact List.mem_append_right _ List.mem_cons_self

end Path

end LiquidLint
