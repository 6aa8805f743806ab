import LiquidLint.Proofs.Path.Join
import Mathlib.Data.List.Infix

/-!
# Directories above a path

The parent of a path is the text up to the end of its last component but one, and so it has all
components but the last (`components_parent?`). The directories above a path are found by going from
parent to parent. `IsChain` says what they are: the paths that begin with the text and with the
components of the path, one for each number of components, down to the root or, above a relative path, to
the empty path (`isChain_ancestors`).
-/

namespace LiquidLint

namespace Path

variable {p q : Path} {t : Text} {i : Nat} {front back : List Piece} {piece : Piece}

/-! ### Cutting behind a piece -/

/-- A segment is one piece, which is not the root, or none. -/
theorem piecesFrom_singleton (i : Nat) (s : Text) :
    piecesFrom i [s] = [] ∨
      s ≠ [] ∧ ∃ c, c ≠ .root ∧ piecesFrom i [s] = [⟨c, i, i + s.length⟩] := by
  unfold piecesFrom
  dsimp only
  split
  · exact Or.inl rfl
  · by_cases hi : i = 0
    · rw [if_pos hi]
      exact Or.inr ⟨List.cons_ne_nil _ _, .here, by decide, rfl⟩
    · rw [if_neg hi]
      exact Or.inl rfl
  · exact Or.inr ⟨List.cons_ne_nil _ _, .up, by decide, rfl⟩
  · rename_i hs _ _
    exact Or.inr ⟨hs, .name (String.ofList s), by simp, rfl⟩

theorem root_not_mem_componentsFrom (i : Nat) (ss : List Text) :
    Component.root ∉ componentsFrom i ss := by
  induction ss generalizing i with
  | nil => exact List.not_mem_nil
  | cons s ss ih =>
    rw [componentsFrom_cons]
    intro hmem
    rcases List.mem_append.1 hmem with hmem | hmem
    · unfold componentsFrom at hmem
      rcases piecesFrom_singleton i s with hnone | ⟨-, c, hc, hone⟩
      · rw [hnone] at hmem
        cases hmem
      · rw [hone] at hmem
        exact hc (List.mem_singleton.1 hmem).symm
    · exact ih _ hmem

/-- A text starts with a segment, behind which there is nothing or a slash. -/
theorem exists_segment (t : Text) : ∃ s r, t = s ++ r ∧ (r = [] ∨ ∃ u, r = '/' :: u) ∧
    Text.splitOn (· == '/') s = [s] := by
  have hplain (s : Text) (hs : '/' ∉ s) : Text.splitOn (· == '/') s = [s] := by
    refine Text.splitOn_of_forall fun c hc => ?_
    rw [beq_eq_false_iff_ne]
    rintro rfl
    exact hs hc
  by_cases hslash : '/' ∈ t
  · obtain ⟨s, u, rfl, hs⟩ := List.eq_append_cons_of_mem hslash
    exact ⟨s, '/' :: u, rfl, Or.inr ⟨u, rfl⟩, hplain s hs⟩
  · exact ⟨t, [], (List.append_nil t).symm, Or.inl rfl, hplain t hslash⟩

/-- The pieces of a text are those of its first segment, then those of the rest. -/
theorem piecesFrom_segment {s : Text} (hs : Text.splitOn (· == '/') s = [s]) (i : Nat) (u : Text) :
    piecesFrom i (Text.splitOn (· == '/') (s ++ '/' :: u)) =
      piecesFrom i [s] ++ piecesFrom (i + s.length + 1) (Text.splitOn (· == '/') u) := by
  rw [Text.splitOn_append_cons rfl, hs, piecesFrom_append]
  rfl

/-- A cut behind a segment and its slash leaves them whole. -/
theorem take_append_slash {s : Text} {n : Nat} (h : s.length < n) (u : Text) :
    (s ++ '/' :: u).take n = s ++ '/' :: u.take (n - (s.length + 1)) := by
  obtain ⟨k, rfl⟩ := Nat.exists_eq_add_of_lt h
  have hleft : s.length + k + 1 - s.length = k + 1 := by omega
  have hright : s.length + k + 1 - (s.length + 1) = k := by omega
  rw [List.take_append, List.take_of_length_le (by omega), hleft, hright, List.take_succ_cons]

/-- A text that is cut where one of its pieces ends has the pieces up to there. -/
theorem piecesFrom_take (h : piecesFrom i (Text.splitOn (· == '/') t) = front ++ piece :: back) :
    i < piece.stop ∧
      piecesFrom i (Text.splitOn (· == '/') (t.take (piece.stop - i))) = front ++ [piece] := by
  -- the induction is on the text, from which the first segment is cut off
  induction hn : t.length using Nat.strong_induction_on generalizing t i front with
  | _ n ih =>
    obtain ⟨s, r, rfl, hr, hs⟩ := exists_segment t
    obtain ⟨rest, hrest, hlater⟩ : ∃ rest,
        piecesFrom i (Text.splitOn (· == '/') (s ++ r)) = piecesFrom i [s] ++ rest ∧
        ∀ front', rest = front' ++ piece :: back → i < piece.stop ∧
          piecesFrom i (Text.splitOn (· == '/') ((s ++ r).take (piece.stop - i))) =
            piecesFrom i [s] ++ (front' ++ [piece]) := by
      rcases hr with rfl | ⟨u, rfl⟩
      · refine ⟨[], by rw [List.append_nil, List.append_nil, hs], fun front' hnil => ?_⟩
        cases front' <;> cases hnil
      · refine ⟨_, piecesFrom_segment hs i u, fun front' hu => ?_⟩
        obtain ⟨hstop, htake⟩ := ih u.length (by rw [← hn]; simp; omega) hu rfl
        refine ⟨by omega, ?_⟩
        have hcut : piece.stop - i - (s.length + 1) = piece.stop - (i + s.length + 1) := by omega
        rw [take_append_slash (by omega), hcut, piecesFrom_segment hs, htake]
    rw [hrest] at h
    rcases piecesFrom_singleton i s with hnone | ⟨hne, c, -, hone⟩
    · rw [hnone] at h hlater
      exact hlater front h
    · rw [hone] at h hlater
      cases front with
      | nil =>
        obtain ⟨rfl, -⟩ := List.cons.inj h
        have hpos := List.length_pos_iff.2 hne
        refine ⟨Nat.lt_add_of_pos_right hpos, ?_⟩
        rw [Nat.add_sub_cancel_left, List.take_left, hs, hone]
        rfl
      | cons first front' =>
        obtain ⟨rfl, hfront⟩ := List.cons.inj h
        exact hlater front' hfront

/-- A path that is cut where one of its components ends has the components up to there. -/
theorem pieces_take (h : p.pieces = front ++ piece :: back) :
    (Path.mk (String.ofList (p.text.toList.take piece.stop))).pieces = front ++ [piece] := by
  rw [pieces_eq] at h
  rw [pieces_eq, String.toList_ofList]
  -- for an absolute path the root is the first piece, and the body starts after it
  by_cases hroot : p.text.toList.head? = some '/'
  · rw [if_pos hroot] at h
    cases front with
    | nil =>
      obtain ⟨rfl, -⟩ := List.cons.inj h
      obtain ⟨rest, hrest⟩ := List.head?_eq_some_iff.1 hroot
      rw [hrest]
      rfl
    | cons first front =>
      obtain ⟨rfl, hbody⟩ := List.cons.inj h
      -- cut inside the body, which keeps the root in front
      obtain ⟨hstop, htake⟩ := piecesFrom_take hbody
      rw [Nat.sub_zero] at htake
      rw [htake, List.head?_take, if_neg (Nat.pos_iff_ne_zero.1 hstop), if_pos hroot]
      rfl
  · rw [if_neg hroot, List.nil_append] at h
    obtain ⟨hstop, htake⟩ := piecesFrom_take h
    rw [Nat.sub_zero] at htake
    rw [htake, List.head?_take, if_neg (Nat.pos_iff_ne_zero.1 hstop), if_neg hroot, List.nil_append]

/-! ### Parents -/

/-- The root is the first component. -/
theorem eq_nil_of_components_root {cs ds : List Component} (h : p.components = cs ++ .root :: ds) :
    cs = [] := by
  have hbody := root_not_mem_componentsFrom 0 (Text.splitOn (· == '/') p.text.toList)
  rw [components_eq, rootOf] at h
  cases cs with
  | nil => rfl
  | cons c cs =>
    -- a root further back would be one of the components of the segments
    refine absurd ?_ hbody
    split at h
    · rw [List.singleton_append, List.cons_append] at h
      rw [(List.cons.inj h).2]
      exact List.mem_append_right _ List.mem_cons_self
    · rw [List.nil_append] at h
      rw [h]
      exact List.mem_append_right _ List.mem_cons_self

/-- A path starts at the root if that is its first component. -/
theorem isAbsolute_iff : p.isAbsolute = true ↔ p.components.head? = some .root := by
  unfold isAbsolute
  rw [beq_iff_eq, components_eq, rootOf]
  split
  · rename_i hslash
    exact iff_of_true hslash rfl
  · rename_i hslash
    refine iff_of_false hslash fun hhead => ?_
    obtain ⟨rest, hrest⟩ := List.head?_eq_some_iff.1 hhead
    rw [List.nil_append] at hrest
    apply root_not_mem_componentsFrom 0 (Text.splitOn (· == '/') p.text.toList)
    rw [hrest]
    exact List.mem_cons_self

/-- Only the empty path has no components. -/
theorem components_eq_nil_iff : p.components = [] ↔ p.text.isEmpty = true := by
  rw [String.isEmpty_iff, ← String.toList_eq_nil_iff, components_eq]
  constructor
  · intro h
    obtain ⟨hroot, hbody⟩ := List.append_eq_nil_iff.1 h
    obtain ⟨s, r, ht, hr, hs⟩ := exists_segment p.text.toList
    rw [ht] at hroot hbody ⊢
    -- a text that does not start with a slash starts with a segment that is a component
    have hfirst : componentsFrom 0 [s] = [] := by
      rcases hr with rfl | ⟨u, rfl⟩
      · rwa [List.append_nil, hs] at hbody
      · unfold componentsFrom at hbody
        rw [piecesFrom_segment hs, List.map_append] at hbody
        exact (List.append_eq_nil_iff.1 hbody).1
    have hnil : s = [] := by
      by_contra hne
      rw [componentsFrom_singleton, if_neg hne, if_pos rfl] at hfirst
      split at hfirst
      · cases hfirst
      · split at hfirst <;> cases hfirst
    rcases hr with rfl | ⟨u, rfl⟩
    · rw [hnil, List.append_nil]
    · rw [hnil] at hroot
      cases hroot
  · intro h
    rw [h]
    rfl

/-- What the parent of a path is, unless there is none. -/
structure IsParent (q p : Path) : Prop where
  components : q.components = p.components.dropLast
  text : q.text.toList <+: p.text.toList
  ne_nil : p.components ≠ []
  ne_root : p.components ≠ [.root]

/-- **The parent** has all components but the last. Only the empty path and the root have none. -/
theorem parent?_cases (p : Path) : (p.parent? = none ∧ (p.components = [] ∨ p.components = [.root])) ∨
    ∃ q, p.parent? = some q ∧ q.IsParent p := by
  have hpieces : p.components = (p.pieces.reverse.map (·.component)).reverse := by
    unfold components
    rw [List.map_reverse, List.reverse_reverse]
  unfold parent?
  -- no piece, the root alone, one piece and several: only the last two have a parent
  split
  · rename_i hnil
    rw [hnil] at hpieces
    exact Or.inl ⟨rfl, Or.inl hpieces⟩
  · rename_i start stop rest hroot
    rw [hroot, List.map_cons, List.reverse_cons] at hpieces
    rw [eq_nil_of_components_root hpieces] at hpieces
    exact Or.inl ⟨rfl, Or.inr hpieces⟩
  · rename_i last hlast hone
    rw [hone] at hpieces
    refine Or.inr ⟨_, rfl, ?_, List.nil_prefix, ?_, ?_⟩
    · rw [hpieces]
      rfl
    · rw [hpieces]
      exact List.cons_ne_nil _ _
    · rw [hpieces]
      intro hroot
      obtain ⟨c, start, stop⟩ := last
      obtain rfl : c = .root := (List.cons.inj hroot).1
      exact hlast start stop rfl
  · rename_i last piece rest hlast hmany
    have hsplit : p.pieces = rest.reverse ++ piece :: [last] := by
      rw [← List.reverse_reverse p.pieces, hmany]
      simp
    rw [hmany] at hpieces
    refine Or.inr ⟨_, rfl, ?_, ?_, ?_, ?_⟩
    · show (Path.pieces _).map _ = _
      rw [pieces_take hsplit, hpieces]
      simp
    · rw [String.toList_ofList]
      exact List.take_prefix _ _
    · rw [hpieces]
      simp
    · rw [hpieces]
      intro hroot
      have hlength := congrArg List.length hroot
      simp at hlength

/-! ### All directories above -/

theorem length_pieces (p : Path) : p.pieces.length = p.components.length := by
  unfold components
  rw [List.length_map]

theorem ancestors_of_none (h : p.parent? = none) : p.ancestors = [p] := by
  unfold ancestors
  cases p.pieces.length with
  | zero => rfl
  | succ n => rw [ancestorsWithin, h]

/-- The directories above a path are its parent and those above the parent. -/
theorem ancestors_of_some (h : p.parent? = some q) (hq : q.IsParent p) :
    p.ancestors = p :: q.ancestors := by
  have hlength : p.pieces.length = q.pieces.length + 1 := by
    have hpos := List.length_pos_iff.2 hq.ne_nil
    rw [length_pieces, length_pieces, hq.components, List.length_dropLast]
    omega
  unfold ancestors
  rw [hlength, ancestorsWithin, h]

/-- What holds of the empty path and the root, and of a path if it holds of its parent, holds of all
paths. -/
@[elab_as_elim]
theorem induction_parent {P : Path → Prop} (last : ∀ p : Path, p.ancestors = [p] →
      p.components = [] ∨ p.components = [.root] → P p)
    (step : ∀ p q : Path, p.ancestors = p :: q.ancestors → q.IsParent p → P q → P p) (p : Path) :
    P p := by
  induction hn : p.components.length using Nat.strong_induction_on generalizing p with
  | _ n ih =>
    rcases parent?_cases p with ⟨hnone, hcases⟩ | ⟨q, hsome, hq⟩
    · exact last p (ancestors_of_none hnone) hcases
    · refine step p q (ancestors_of_some hsome hq) hq (ih q.components.length ?_ q rfl)
      have hpos := List.length_pos_iff.2 hq.ne_nil
      rw [← hn, hq.components, List.length_dropLast]
      omega

theorem IsParent.isAbsolute (h : q.IsParent p) : q.isAbsolute = p.isAbsolute := by
  rw [Bool.eq_iff_iff, isAbsolute_iff, isAbsolute_iff, h.components]
  obtain ⟨c, cs, hp⟩ := List.exists_cons_of_ne_nil h.ne_nil
  rw [hp]
  cases cs with
  | nil =>
    have hne := h.ne_root
    rw [hp] at hne
    simpa using hne
  | cons d ds => rfl

/-- The components of a path and of the directories above it. -/
def chain (p : Path) : List (List Component) :=
  (if p.isAbsolute then p.components.inits.tail else p.components.inits).reverse

/-- **The directories above a path**, by their components. -/
theorem map_components_ancestors (p : Path) : p.ancestors.map components = p.chain := by
  induction p using induction_parent with
  | last p h hcases =>
    unfold chain
    rw [h]
    rcases hcases with hnil | hroot
    · have habsolute : p.isAbsolute = false := by
        rw [Bool.eq_false_iff, ne_eq, isAbsolute_iff, hnil]
        exact nofun
      rw [habsolute, hnil]
      simp [hnil]
    · rw [isAbsolute_iff.2 (by rw [hroot]; rfl), hroot]
      simp [hroot]
  | step p q h hq ih =>
    have hp : p.components = q.components ++ [p.components.getLast hq.ne_nil] := by
      rw [hq.components, List.dropLast_concat_getLast]
    have hinits : p.components.inits = q.components.inits ++ [p.components] := by
      rw [hp, List.inits_append]
      rfl
    -- the path itself has the longest beginning, and its parent the others
    rw [h, List.map_cons, ih]
    unfold chain
    rw [← hq.isAbsolute, hinits]
    split
    · have hmem : [] ∈ q.components.inits := (List.mem_inits _ _).2 List.nil_prefix
      obtain ⟨cs, rest, hcs⟩ := List.exists_cons_of_ne_nil (List.ne_nil_of_mem hmem)
      rw [hcs, List.cons_append, List.tail_cons, List.tail_cons, List.reverse_append]
      rfl
    · rw [List.reverse_append]
      rfl

/-- The text of each is one that the text of the path starts with. -/
theorem prefix_of_mem_ancestors {d : Path} (h : d ∈ p.ancestors) : d.text.toList <+: p.text.toList := by
  induction p using induction_parent with
  | last p hp _ =>
    rw [hp] at h
    rw [List.mem_singleton.1 h]
  | step p q hp hq ih =>
    rw [hp] at h
    rcases List.mem_cons.1 h with rfl | h
    · exact List.prefix_refl _
    · exact (ih h).trans hq.text

/-- Above a relative path comes the empty path last. -/
theorem getLast?_ancestors (h : p.isAbsolute = false) : p.ancestors.getLast? = some ⟨""⟩ := by
  induction p using induction_parent with
  | last p hp hcases =>
    rw [hp]
    rcases hcases with hnil | hroot
    · obtain ⟨text⟩ := p
      rw [components_eq_nil_iff, String.isEmpty_iff] at hnil
      exact congrArg (fun text => some (Path.mk text)) hnil
    · rw [Bool.eq_false_iff, ne_eq, isAbsolute_iff, hroot] at h
      exact absurd rfl h
  | step p q hp hq ih =>
    rw [hp, List.getLast?_cons, ih (hq.isAbsolute.trans h)]
    rfl

/-- What it means that paths are a path and all directories above it, nearest first. -/
structure IsChain (p : Path) (dirs : List Path) : Prop where
  components : dirs.map Path.components = p.chain
  text : ∀ d ∈ dirs, d.text.toList <+: p.text.toList
  first : dirs.head? = some p
  last : p.isAbsolute = false → dirs.getLast? = some ⟨""⟩

theorem isChain_ancestors (p : Path) : p.IsChain p.ancestors :=
  ⟨map_components_ancestors p, fun _ => prefix_of_mem_ancestors, rfl, getLast?_ancestors⟩

end Path

end LiquidLint
