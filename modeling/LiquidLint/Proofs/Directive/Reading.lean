import LiquidLint.Proofs.Edit.Disabled

/-!
# What the comments of a template say

A comment holds a directive when its body is the word of the directive, blanks before it aside,
followed by a list of check names (`Directive.Says`). Reading a body gives the directive it holds, and
nothing else (`parse_eq_disable_iff`, `parse_eq_enable_iff`): names end at separators, and a word that
goes on is no directive.

The main result says what all comments of a template mean together, in terms of the comments alone:
`isDisabled_iff_turnsOff`. It rests on `DisabledRanges.isDisabled_iff_exists`, for which the directives
have to stand one after the other in the source. In a tree that was parsed they do
(`pairwise_directives`), however deep in blocks their comments are.
-/

namespace LiquidLint

open Liquid (Node)
open Liquid.Token (IsGap)

/-! ### Fields of a text -/

namespace Text

variable {p : Char → Bool} {c : Char} {w : Text}

theorem splitOn_ne_nil (p : Char → Bool) (t : Text) : splitOn p t ≠ [] := by
  cases t with
  | nil => simp [splitOn]
  | cons c t =>
    unfold splitOn
    split
    · simp
    · split <;> simp

/-- A separator divides the runs before it from those after it. -/
theorem splitOn_append_cons (hc : p c = true) (s t : Text) :
    splitOn p (s ++ c :: t) = splitOn p s ++ splitOn p t := by
  induction s with
  | nil => exact if_pos hc
  | cons d s ih =>
    rw [List.cons_append, splitOn, splitOn, ih]
    by_cases hd : p d = true
    · rw [if_pos hd, if_pos hd, List.cons_append]
    · rw [if_neg hd, if_neg hd]
      cases hs : splitOn p s with
      | nil => exact absurd hs (splitOn_ne_nil p s)
      | cons first rest => rfl

theorem fields_append_cons (hc : p c = true) (s t : Text) :
    fields p (s ++ c :: t) = fields p s ++ fields p t := by
  unfold fields
  rw [splitOn_append_cons hc, List.filter_append]

theorem fields_cons (hc : p c = true) (t : Text) : fields p (c :: t) = fields p t :=
  fields_append_cons hc [] t

/-- Separators at the end make no difference. -/
theorem fields_append_of_forall {s : Text} (hs : ∀ c ∈ s, p c = true) (t : Text) :
    fields p (t ++ s) = fields p t := by
  induction s generalizing t with
  | nil => rw [List.append_nil]
  | cons c s ih =>
    obtain ⟨hc, hs⟩ := List.forall_mem_cons.1 hs
    have hnothing : fields p s = [] := ih hs []
    rw [fields_append_cons hc, hnothing, List.append_nil]

/-- Characters without a separator are one field. -/
theorem fields_of_forall (hne : w ≠ []) (hw : ∀ c ∈ w, p c = false) : fields p w = [w] := by
  have hsplit : ∀ w : Text, (∀ c ∈ w, p c = false) → splitOn p w = [w] := by
    intro w hw
    induction w with
    | nil => rfl
    | cons c w ih =>
      obtain ⟨hc, hw⟩ := List.forall_mem_cons.1 hw
      rw [splitOn, if_neg (by simp [hc]), ih hw]
  unfold fields
  rw [hsplit w hw, List.filter_cons_of_pos (by simpa using hne), List.filter_nil]

/-- A field ends at a separator or at the end of the text. -/
theorem fields_word_append (hne : w ≠ []) (hw : ∀ c ∈ w, p c = false) {t : Text}
    (ht : ∀ c ∈ t.head?, p c = true) : fields p (w ++ t) = w :: fields p t := by
  cases t with
  | nil =>
    rw [List.append_nil, fields_of_forall hne hw]
    rfl
  | cons c t =>
    have hc : p c = true := ht c rfl
    rw [fields_append_cons hc, fields_of_forall hne hw, fields_cons hc]
    rfl

end Text

/-! ### Directives -/

namespace Directive

/-- Check names as they are listed behind the word of a directive: each one follows a separator, and
more separators than that do not count. -/
inductive Listed : List String → Text → Prop
  | nil : Listed [] []
  | separator {c : Char} {names : List String} {rest : Text} :
      isSeparator c = true → Listed names rest → Listed names (c :: rest)
  | name {c : Char} {word rest : Text} {names : List String} :
      isSeparator c = true → word ≠ [] → (∀ d ∈ word, isSeparator d = false) →
      Listed names rest → Listed (String.ofList word :: names) (c :: (word ++ rest))

/-- The body of a comment holds a directive: blanks, the word of the directive, and the names. -/
def Says (word : Text) (names : List String) (body : Text) : Prop :=
  ∃ gap list, IsGap gap ∧ body = gap ++ (word ++ list) ∧ Listed names list

variable {names : List String} {body list word : Text}

theorem Listed.head (h : Listed names list) : ∀ c ∈ list.head?, isSeparator c = true := by
  intro c hc
  cases h with
  | nil => cases hc
  | separator hsep _ =>
    obtain rfl := Option.some.inj hc
    exact hsep
  | name hsep _ _ _ =>
    obtain rfl := Option.some.inj hc
    exact hsep

theorem Listed.fields_eq (h : Listed names list) :
    (Text.fields isSeparator list).map String.ofList = names := by
  induction h with
  | nil => rfl
  | separator hsep _ ih => rw [Text.fields_cons hsep, ih]
  | name hsep hne hword hrest ih =>
    rw [Text.fields_cons hsep, Text.fields_word_append hne hword hrest.head, List.map_cons, ih]

/-- What stands behind a word lists its fields, unless the word goes on. -/
theorem listed_fields (list : Text) (h : ∀ c ∈ list.head?, isSeparator c = true) :
    Listed ((Text.fields isSeparator list).map String.ofList) list := by
  -- the text behind the word is read up to the first name, which is then cut off as a whole
  match list, h with
  | [], _ => exact Listed.nil
  | [c], h =>
    have hc : isSeparator c = true := h c rfl
    rw [Text.fields_cons hc]
    exact Listed.separator hc Listed.nil
  | c :: d :: rest, h =>
    have hc : isSeparator c = true := h c rfl
    rw [Text.fields_cons hc]
    by_cases hd : isSeparator d = true
    · exact Listed.separator hc (listed_fields (d :: rest) fun e he => Option.some.inj he ▸ hd)
    · -- the name that starts here goes up to the next separator
      have hsplit : d :: rest = (d :: rest).takeWhile (!isSeparator ·) ++
          (d :: rest).dropWhile (!isSeparator ·) := List.takeWhile_append_dropWhile.symm
      have hshort : ((d :: rest).dropWhile (!isSeparator ·)).length ≤ rest.length := by
        rw [List.dropWhile_cons_of_pos (by simpa using hd)]
        exact List.length_dropWhile_le _ _
      have hword : ∀ e ∈ (d :: rest).takeWhile (!isSeparator ·), isSeparator e = false := by
        intro e he
        simpa using List.mem_takeWhile_imp he
      have hne : (d :: rest).takeWhile (!isSeparator ·) ≠ [] := by
        rw [List.takeWhile_cons_of_pos (by simpa using hd)]
        simp
      have hhead : ∀ e ∈ ((d :: rest).dropWhile (!isSeparator ·)).head?, isSeparator e = true := by
        intro e he
        have hstop := List.head?_dropWhile_not (!isSeparator ·) (d :: rest)
        rw [Option.mem_def.1 he] at hstop
        simpa using hstop
      have ih := listed_fields ((d :: rest).dropWhile (!isSeparator ·)) hhead
      rw [hsplit, Text.fields_word_append hne hword hhead]
      exact Listed.name hc hne hword ih
termination_by list.length

theorem names?_of_head (h : ∀ c ∈ list.head?, isSeparator c = true) :
    names? list = some ((Text.fields isSeparator list).map String.ofList) := by
  cases list with
  | nil => rfl
  | cons c rest => exact if_pos (h c rfl)

/-- **The names behind a word** are those that are listed there. -/
theorem names?_eq_some_iff : names? list = some names ↔ Listed names list := by
  constructor
  · intro h
    have hhead : ∀ c ∈ list.head?, isSeparator c = true := by
      intro c hc
      cases list with
      | nil => cases hc
      | cons d rest =>
        obtain rfl := Option.some.inj hc
        by_contra hsep
        rw [names?, if_neg hsep] at h
        cases h
    rw [names?_of_head hhead] at h
    exact Option.some.inj h ▸ listed_fields list hhead
  · intro h
    rw [names?_of_head h.head, h.fields_eq]

/-- Blanks at the end belong to the list and do not change it. -/
theorem names?_append_gap {gap : Text} (hgap : IsGap gap) (list : Text) :
    names? (list ++ gap) = names? list := by
  -- a gap is made of separators, and those at the end name nothing
  have hsep : ∀ c ∈ gap, isSeparator c = true := by
    intro c hc
    unfold isSeparator
    rw [hgap c hc, Bool.or_true]
  cases list with
  -- an empty list and a gap have no names, and no character that goes on with the word
  | nil =>
    cases gap with
    | nil => rfl
    | cons c gap =>
      have hnothing : Text.fields isSeparator (c :: gap) = [] :=
        Text.fields_append_of_forall hsep []
      have hhead : ∀ d ∈ (c :: gap).head?, isSeparator d = true := by
        intro d hd
        exact hsep d (List.mem_of_mem_head? hd)
      rw [List.nil_append, names?_of_head hhead, hnothing]
      rfl
  | cons c list =>
    rw [List.cons_append, names?, names?, ← List.cons_append, Text.fields_append_of_forall hsep]

/-- **A word and its names** are found in the trimmed body where they stand in the body. -/
theorem bind_names?_eq_some_iff (hfirst : ∀ c ∈ word.head?, isBlank c = false)
    (hlast : ∀ c ∈ word.getLast?, isBlank c = false) (hne : word ≠ []) :
    (Text.dropStart? word body.trim).bind names? = some names ↔ Says word names body := by
  rw [Option.bind_eq_some_iff]
  constructor
  · rintro ⟨list, hlist, hnames⟩
    obtain ⟨gap, gap', hgap, hgap', hbody⟩ := Liquid.exists_append_trim_append body
    rw [Text.dropStart?_eq_some_iff.1 hlist] at hbody
    refine ⟨gap, list ++ gap', hgap, by rw [hbody]; simp, ?_⟩
    rw [← names?_eq_some_iff, names?_append_gap hgap']
    exact hnames
  · rintro ⟨gap, list, hgap, rfl, hlisted⟩
    obtain ⟨gap', hgap', hlist⟩ := Liquid.exists_trimStop_append list
    have hhead : ∀ c ∈ (word ++ list.trimStop).head?, isBlank c = false := by
      rw [List.head?_append_of_ne_nil word hne]
      exact hfirst
    -- the body without its gaps starts with the word
    have htrim : Text.trim (gap ++ (word ++ list)) = word ++ list.trimStop := by
      have h := Liquid.trim_append hgap hgap' (List.append_ne_nil_of_left_ne_nil hne _) hhead
        (Liquid.getLast?_append_trimStop hlast)
      rwa [List.append_assoc, ← hlist] at h
    refine ⟨list.trimStop, ?_, ?_⟩
    · rw [htrim]
      exact Text.dropStart?_append word _
    · rw [← names?_append_gap hgap', ← hlist]
      exact names?_eq_some_iff.2 hlisted

theorem parse_eq_disable_iff : parse body = some (.disable names) ↔ Says disableWord names body := by
  rw [← bind_names?_eq_some_iff (by rintro c ⟨⟩; rfl) (by rintro c ⟨⟩; rfl) (by decide), parse]
  cases Text.dropStart? disableWord body.trim with
  | some rest => simp
  | none =>
    cases Text.dropStart? enableWord body.trim with
    | some rest => simp
    | none => simp

theorem parse_eq_enable_iff : parse body = some (.enable names) ↔ Says enableWord names body := by
  rw [← bind_names?_eq_some_iff (by rintro c ⟨⟩; rfl) (by rintro c ⟨⟩; rfl) (by decide), parse]
  cases henable : Text.dropStart? enableWord body.trim with
  | none =>
    cases Text.dropStart? disableWord body.trim with
    | some rest => simp
    | none => simp
  | some rest =>
    -- the words differ before either of them ends
    have hdisable : Text.dropStart? disableWord body.trim = none := by
      rw [Text.dropStart?_eq_some_iff.1 henable]
      rfl
    rw [hdisable]
    simp

end Directive

/-! ### Comments -/

namespace DisabledRanges

variable {root : Node} {source : Text} {key : DisableKey} {x : Nat}

/-- A comment of a template: where it starts, and its body. -/
def HasComment (root : Node) (source : Text) (start : Nat) (body : Text) : Prop :=
  ∃ n ∈ root.descendants, n.typeName = "comment" ∧ n.span.start = start ∧ bodyText n source = body

/-- A comment that starts at `x` turns off what `key` stands for: it names the check, or no check at
all when `key` stands for all of them. -/
def TurnsOff (root : Node) (source : Text) (key : DisableKey) (x : Nat) : Prop :=
  ∃ names body, HasComment root source x body ∧ Directive.Says Directive.disableWord names body ∧
    (names = [] ∧ key = none ∨ ∃ name ∈ names, key = some name)

/-- A comment that starts at `x` turns on again what `key` stands for: it names the check, or no check
at all and so speaks of every key. -/
def TurnsOn (root : Node) (source : Text) (key : DisableKey) (x : Nat) : Prop :=
  ∃ names body, HasComment root source x body ∧ Directive.Says Directive.enableWord names body ∧
    (names = [] ∨ ∃ name ∈ names, key = some name)

theorem mem_directives_iff {d : Directive} : (x, d) ∈ directives root source ↔
    ∃ body, HasComment root source x body ∧ Directive.parse body = some d := by
  simp only [directives, HasComment, List.mem_filterMap, List.mem_filter, beq_iff_eq,
    Option.map_eq_some_iff, Prod.mk.injEq]
  constructor
  · rintro ⟨n, ⟨hn, hname⟩, d', hparse, hstart, rfl⟩
    exact ⟨_, ⟨n, hn, hname, hstart, rfl⟩, hparse⟩
  · rintro ⟨_, ⟨n, hn, hname, hstart, rfl⟩, hparse⟩
    exact ⟨n, ⟨hn, hname⟩, d, hparse, hstart, rfl⟩

theorem turnsOff_iff : TurnsOff root source key x ↔
    ∃ d, (x, d) ∈ directives root source ∧ d.Opens key := by
  have hkeys : ∀ names, key ∈ Directive.keys names ↔
      (names = [] ∧ key = none ∨ ∃ name ∈ names, key = some name) := by
    intro names
    cases names with
    | nil => simp [Directive.keys]
    | cons name names => simp [Directive.keys, eq_comm]
  unfold TurnsOff
  simp only [mem_directives_iff, ← Directive.parse_eq_disable_iff, ← hkeys]
  constructor
  · rintro ⟨names, body, hbody, hsays, hkey⟩
    exact ⟨.disable names, ⟨body, hbody, hsays⟩, hkey⟩
  · rintro ⟨d, ⟨body, hbody, hsays⟩, hkey⟩
    cases d with
    | disable names => exact ⟨names, body, hbody, hsays, hkey⟩
    | enable names => cases hkey

theorem turnsOn_iff : TurnsOn root source key x ↔
    ∃ d, (x, d) ∈ directives root source ∧ d.Closes key := by
  unfold TurnsOn
  simp only [mem_directives_iff, ← Directive.parse_eq_enable_iff]
  constructor
  · rintro ⟨names, body, hbody, hsays, hkey⟩
    refine ⟨.enable names, ⟨body, hbody, hsays⟩, hkey.imp_right ?_⟩
    rintro ⟨name, hname, rfl⟩
    exact List.mem_map.2 ⟨name, hname, rfl⟩
  · rintro ⟨d, ⟨body, hbody, hsays⟩, hkey⟩
    cases d with
    | disable names => cases hkey
    | enable names =>
      refine ⟨names, body, hbody, hsays, hkey.imp_right fun hmem => ?_⟩
      obtain ⟨name, hname, rfl⟩ := List.mem_map.1 hmem
      exact ⟨name, hname, rfl⟩

/-- The directives of a template that parses stand one after the other inside it. -/
theorem pairwise_directives (h : Liquid.parse source = .ok root) :
    (directives root source).Pairwise (fun a b => a.1 < b.1) ∧
      ∀ d ∈ directives root source, d.1 < source.size := by
  obtain ⟨b, hfits, hcuts, rfl⟩ := Liquid.exists_body_of_parse h
  obtain rfl : b.spell = source := Liquid.Body.spell_of_cuts hcuts
  rw [Edit.directives_document hfits]
  refine ⟨Edit.pairwise_directivesOf b 0, fun d hd => ?_⟩
  have hbound := (Edit.mem_directivesOf_bounds hd).2
  omega

/-- **Disable comments mean what they say**: in a template that parses, a check is disabled at an
offset exactly when the offset is one of the template and some comment that starts there or further
left turns the check off, by its name or together with all others, and no comment between the two
turns that on again. -/
theorem isDisabled_iff_turnsOff (h : Liquid.parse source = .ok root) (check : String) (x : Nat) :
    (ofTemplate root source).isDisabled check x = true ↔
      x ≤ source.size ∧ ∃ key : DisableKey, (key = none ∨ key = some check) ∧
        ∃ d ≤ x, TurnsOff root source key d ∧
          ∀ e, d < e → e < x → ¬ TurnsOn root source key e := by
  obtain ⟨hds, hsize⟩ := pairwise_directives h
  rw [isDisabled_iff_exists check hds fun d hd => Nat.le_of_lt (hsize d hd)]
  refine and_congr_right fun _ => exists_congr fun key => and_congr_right fun _ => ?_
  -- what is left is to split positions and directives, which the two sides bind together and apart
  simp only [turnsOff_iff, turnsOn_iff]
  constructor
  · rintro ⟨⟨d, directive⟩, hmem, hle, hopens, hnone⟩
    refine ⟨d, hle, ⟨directive, hmem, hopens⟩, ?_⟩
    rintro e hgt hlt ⟨directive', hmem', hcloses⟩
    exact hnone (e, directive') hmem' hgt hlt hcloses
  · rintro ⟨d, hle, ⟨directive, hmem, hopens⟩, hnone⟩
    refine ⟨(d, directive), hmem, hle, hopens, fun q hq hgt hlt hcloses => ?_⟩
    exact hnone q.1 hgt hlt ⟨q.2, hq, hcloses⟩

/-- A directive inside a block that names two checks, of which another one names one: behind both, the
first check is on and the second is off. -/
theorem isDisabled_iff_turnsOff_named :
    let source : Text := ("\x7b% if a %\x7d\x7b% comment %\x7dtheme-check-disable A, B" ++
      "\x7b% endcomment %\x7d\x7b\x7bx\x7d\x7d\x7b% endif %\x7d" ++
      "\x7b% comment %\x7dtheme-check-enable A\x7b% endcomment %\x7d\x7b\x7by\x7d\x7d").toList
    let Off (root : Node) (check : String) : Prop :=
      ∃ key : DisableKey, (key = none ∨ key = some check) ∧ ∃ d ≤ 128, TurnsOff root source key d ∧
        ∀ e, d < e → e < 128 → ¬ TurnsOn root source key e
    ∃ root, Liquid.parse source = .ok root ∧ ¬ Off root "A" ∧ Off root "B" := by
  intro source Off
  obtain ⟨root, hroot, hvalue⟩ : ∃ root, Liquid.parse source = .ok root ∧
      ((ofTemplate root source).isDisabled "A" 128, (ofTemplate root source).isDisabled "B" 128) =
        (false, true) := Liquid.exists_parse_of_map (by decide +kernel)
  obtain ⟨hA, hB⟩ := Prod.mk.inj hvalue
  obtain ⟨hsize, hoffB⟩ := (isDisabled_iff_turnsOff hroot "B" 128).1 hB
  refine ⟨root, hroot, fun hoffA => ?_, hoffB⟩
  rw [(isDisabled_iff_turnsOff hroot "A" 128).2 ⟨hsize, hoffA⟩] at hA
  cases hA

end DisabledRanges

end LiquidLint
