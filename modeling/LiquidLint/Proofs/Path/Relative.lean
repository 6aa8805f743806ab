import LiquidLint.Proofs.Path.Join
import LiquidLint.Proofs.Path.Order

/-!
# Paths seen from a directory

Names that stand behind a directory are what is left of the path when it is seen from the directory
(`relativeTo_join`). A directory is compared by its components only, so it may be written in another
way than the path is. Seen from anywhere else the path stays as it is (`relativeTo_of_not`).
-/

namespace LiquidLint

namespace Path

variable {p base : Path} {names : List String}

/-! ### Names behind a directory -/

/-- Where names start and end that are divided by slashes. -/
theorem exists_piecesFrom_names (hne : names ≠ []) (h : ∀ n ∈ names, IsName n) (i : Nat) :
    ∃ first rest last, piecesFrom i (names.map String.toList) = first :: rest ∧
      (first :: rest).getLast? = some last ∧ first.start = i ∧
      last.stop + 1 = i + Text.extent (names.map String.toList) := by
  induction names generalizing i with
  | nil => exact absurd rfl hne
  | cons n names ih =>
    obtain ⟨hn, hrest⟩ := List.forall_mem_cons.1 h
    rw [List.map_cons, piecesFrom_cons_of_isName hn, Text.extent]
    cases names with
    | nil => exact ⟨_, _, ⟨.name n, i, i + n.toList.length⟩, rfl, rfl, rfl, rfl⟩
    | cons m names =>
      obtain ⟨first, rest, last, hpieces, hlast, -, hstop⟩ :=
        ih (List.cons_ne_nil m names) hrest (i + n.toList.length + 1)
      refine ⟨_, _, last, rfl, ?_, rfl, ?_⟩
      · rw [hpieces, List.getLast?_cons_cons, hlast]
      · rw [hstop]
        omega

/-- What is left of a path whose last pieces are names. -/
theorem relativeTo_of_pieces {front : List Piece} {i : Nat} (hne : names ≠ [])
    (h : ∀ n ∈ names, IsName n) (hpieces : p.pieces = front ++ piecesFrom i (names.map String.toList))
    (hfront : front.map (·.component) = base.components)
    (htext : p.text.toList.drop i = (ofNames names).text.toList) : p.relativeTo base = ofNames names := by
  obtain ⟨first, rest, last, hnames, hlast, hstart, hstop⟩ := exists_piecesFrom_names hne h i
  have hlength : front.length = base.components.length := by rw [← hfront, List.length_map]
  have htake : (p.pieces.take base.components.length).map (·.component) = base.components := by
    rw [hpieces, ← hlength, List.take_left, hfront]
  have hdrop : p.pieces.drop base.components.length = first :: rest := by
    rw [hpieces, ← hlength, List.drop_left, hnames]
  have hgetLast : p.pieces.getLast? = some last := by
    rw [hpieces, hnames, List.getLast?_append, hlast, Option.some_or]
  -- the last piece ends where the text ends, so the cut after it takes the whole text
  have hend : p.text.toList.take last.stop = p.text.toList := by
    refine List.take_of_length_le ?_
    have hlength' := congrArg List.length htext
    have hextent := Text.extent_splitOn (· == '/') (ofNames names).text.toList
    rw [splitOn_ofNames hne h] at hextent
    rw [List.length_drop] at hlength'
    omega
  -- `front` has as many components as the base, and they agree, so exactly the names are left
  unfold relativeTo relativeTo?
  dsimp only
  rw [if_pos htake, hdrop, hgetLast]
  dsimp only
  rw [hend, hstart, htext, String.ofList_toList]
  rfl

/-- **Names behind a directory** are what is left of the path, seen from the directory. -/
theorem relativeTo_join (hp : p.text.isEmpty = false) (hbase : p.components = base.components)
    (hne : names ≠ []) (h : ∀ n ∈ names, IsName n) :
    (p.join (ofNames names)).relativeTo base = ofNames names := by
  -- the joined text is some `s`, a slash and the names; `s` has the pieces of `p`
  obtain ⟨s, hjoin, hcomponents⟩ := exists_text_join hp (isAbsolute_ofNames hne h)
  have hextent := Text.extent_splitOn (· == '/') s
  have hbody : piecesFrom 0 (Text.splitOn (· == '/') (p.join (ofNames names)).text.toList) =
      piecesFrom 0 (Text.splitOn (· == '/') s) ++
        piecesFrom (s.length + 1) (names.map String.toList) := by
    rw [hjoin, Text.splitOn_append_cons rfl, splitOn_ofNames hne h, piecesFrom_append, hextent,
      Nat.zero_add]
  have hdrop : (p.join (ofNames names)).text.toList.drop (s.length + 1) =
      (ofNames names).text.toList := by
    rw [hjoin, ← List.drop_drop, List.drop_left]
    rfl
  have hhead : (p.join (ofNames names)).text.toList.head? = (s ++ ['/']).head? := by
    rw [hjoin]
    cases s <;> rfl
  have hpieces : (p.join (ofNames names)).pieces =
      ((if (s ++ ['/']).head? = some '/' then [⟨.root, 0, 1⟩] else []) ++
        piecesFrom 0 (Text.splitOn (· == '/') s)) ++
          piecesFrom (s.length + 1) (names.map String.toList) := by
    rw [pieces_eq, hhead, hbody, List.append_assoc]
  refine relativeTo_of_pieces hne h hpieces ?_ hdrop
  rw [← hbase, hcomponents, List.map_append, rootOf]
  split <;> rfl

theorem relativeTo_ofNames (hbase : base.components = []) (hne : names ≠ [])
    (h : ∀ n ∈ names, IsName n) : (ofNames names).relativeTo base = ofNames names := by
  have hpieces : (ofNames names).pieces = [] ++ piecesFrom 0 (names.map String.toList) := by
    rw [pieces_eq, if_neg (head?_ofNames hne h), splitOn_ofNames hne h]
  exact relativeTo_of_pieces hne h hpieces hbase.symm rfl

/-- Seen from an empty path, names below the top stay as they are. -/
theorem relativeTo_top (hbase : base.components = []) (hne : names ≠ []) (h : ∀ n ∈ names, IsName n) :
    ((⟨"/"⟩ : Path).join (ofNames names)).relativeTo base = (⟨"/"⟩ : Path).join (ofNames names) := by
  obtain ⟨first, rest, last, hnames, hlast, -, hstop⟩ := exists_piecesFrom_names hne h 1
  have hjoin : (⟨"/"⟩ : Path).join (ofNames names) = ⟨"/" ++ (ofNames names).text⟩ := by
    unfold join
    rw [isAbsolute_ofNames hne h]
    rfl
  rw [hjoin]
  have htext : ("/" ++ (ofNames names).text).toList = '/' :: (ofNames names).text.toList := by
    rw [String.toList_append]
    rfl
  have hpieces : (⟨"/" ++ (ofNames names).text⟩ : Path).pieces = ⟨.root, 0, 1⟩ :: first :: rest := by
    have hsplit : Text.splitOn (· == '/') ('/' :: (ofNames names).text.toList) =
        [] :: Text.splitOn (· == '/') (ofNames names).text.toList := rfl
    rw [pieces_eq, htext, hsplit, splitOn_ofNames hne h, piecesFrom, List.length_nil, ← hnames]
    rfl
  have hend : ('/' :: (ofNames names).text.toList).take last.stop =
      '/' :: (ofNames names).text.toList := by
    have hextent := Text.extent_splitOn (· == '/') (ofNames names).text.toList
    rw [splitOn_ofNames hne h] at hextent
    refine List.take_of_length_le ?_
    rw [List.length_cons]
    omega
  unfold relativeTo relativeTo?
  dsimp only
  rw [hbase, List.length_nil, List.take_zero, List.map_nil, if_pos rfl, hpieces, List.drop_zero,
    List.getLast?_cons_cons, hlast]
  dsimp only
  rw [htext, hend, List.drop_zero, Option.getD_some, ← htext, String.ofList_toList]

theorem relativeTo_of_not (h : ¬ base.components <+: p.components) : p.relativeTo base = p := by
  unfold relativeTo relativeTo?
  dsimp only
  rw [if_neg]
  · rfl
  · intro htake
    apply h
    rw [← htake, List.map_take]
    exact List.take_prefix _ _

end Path

end LiquidLint
