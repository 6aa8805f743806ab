import LiquidLint.Proofs.Edit.Site

/-!
# A round of edits over a body

`run_body` follows a schedule of edits through a body from its last construct to its first:

* inside a construct all fixes are applied (`run_output`, `run_ending_tag`, `run_tag`), and the edit
  that takes a whole tag away comes last, so it is left out exactly when the tag was touched before;
* a block is its opening tag, the body inside it, its end tag and what follows, and each part is run
  with its own edits; a raw block is the same with text inside (`exists_endOutcome` is their common
  part, from the end tag on).

The body that comes out is described by `Outcome`: it is a mended one, with nothing but spaces changed
when all edits put in spaces, it holds no fixes when all of them were among the edits, and it has fewer
`assign` tags when all edits were of these.
-/

namespace LiquidLint.Edit

open Correction (Before Runs)
open Liquid (Body nameOf IsWord)
open Liquid.Token (tagLexeme)
open Spacing (Amends AmendsEnd DiffersBySpaces Even MendsTo Renamed Respaced Touches rename)

variable {on : Off → String → Bool} {off : Off} {source m : Text} {offset : Nat}
  {L : List Correction}

/-! ### Constructs -/

/-- No fix is left at a construct, wherever it stands. -/
def Clean (on : Off → String → Bool) (off : Off) (w : Piece) : Prop :=
  ∀ start c, ¬ (Site.mk off start w).Fix on c

theorem edited_singleton {s : Site} (h : Edited on [s] L) : ∀ c ∈ L, s.Owns on c := by
  intro c hc
  obtain ⟨s', hs, h⟩ := h c hc
  rwa [← List.mem_singleton.1 hs]

/-- A construct that is no `assign` tag is not taken away. -/
theorem eq_nil_of_dropping {s : Site} (hs : ∀ c, ¬ s.Drop c) (h : Dropping [s] L) : L = [] := by
  refine List.eq_nil_iff_forall_not_mem.2 fun c hc => ?_
  obtain ⟨s', hs', h⟩ := h c hc
  rw [List.mem_singleton.1 hs'] at h
  exact hs c h

/-- The markup of a tag stands after its opening delimiter. -/
theorem stands_markup (h : Text.Stands source offset (tagLexeme m)) :
    Text.Stands source (offset + 2) m :=
  (Text.Stands.right (s := ['{', '%']) h).left

/-- **Outputs.** -/
theorem run_output (hsource : Text.Stands source offset ('{' :: '{' :: (m ++ ['}', '}'])))
    (hL : L.Pairwise Before) (hmem : Edited on [⟨off, offset, .output m⟩] L) :
    ∃ m', Runs source L offset ('{' :: '{' :: (m ++ ['}', '}'])) ('{' :: '{' :: (m' ++ ['}', '}'])) ∧
      Respaced m m' ∧ DiffersBySpaces m m' ∧
      (Complete on [⟨off, offset, .output m⟩] L → Clean on off (.output m')) := by
  have hm : Text.Stands source (offset + 2) m :=
    (Text.Stands.right (s := ['{', '{']) hsource).left
  have hflaws : ∀ c ∈ L, Amends true (offset + 2) m c := by
    intro c hc
    exact (((edited_singleton hmem c hc).resolve_right id).resolve_right And.right).2
  obtain ⟨m', hruns, hmends, hall⟩ := Spacing.run_respaced hm hL hflaws
  refine ⟨m', Runs.frame (a := ['{', '{']) hruns,
    Spacing.respaced_of_mendsTo (a := []) (Or.inl rfl) hmends,
    Spacing.differsBySpaces_of_mendsTo hmends, fun hevery start c hc => ?_⟩
  obtain ⟨hon, hc⟩ := hc.resolve_right And.right
  have heven : Even true m' :=
    hall fun c hc' => hevery c _ (List.mem_singleton.2 rfl) (Or.inl ⟨hon, hc'⟩)
  exact heven.not_amends _ c hc

/-- **End tags.** -/
theorem run_ending_tag (hsource : Text.Stands source offset (tagLexeme m)) (hL : L.Pairwise Before)
    (hmem : Edited on [⟨off, offset, .ending m⟩] L) :
    ∃ m', Runs source L offset (tagLexeme m) (tagLexeme m') ∧ Respaced m m' ∧
      (Complete on [⟨off, offset, .ending m⟩] L → Clean on off (.ending m')) := by
  have hflaws : ∀ c ∈ L, AmendsEnd (offset + 2) m c := by
    intro c hc
    exact (((edited_singleton hmem c hc).resolve_right id).resolve_right And.right).2
  obtain ⟨m', hruns, hresp, hall⟩ := Spacing.run_ending (stands_markup hsource) hL hflaws
  refine ⟨m', Runs.frame (a := ['{', '%']) hruns, hresp, fun hevery start c hc => ?_⟩
  obtain ⟨hon, hc⟩ := hc.resolve_right And.right
  refine hall (fun c hc' => ?_) _ c hc
  exact hevery c _ (List.mem_singleton.2 rfl) (Or.inl ⟨hon, hc'⟩)

/-! ### Tags -/

/-- How a tag that stays may change. -/
def Retouched (m m' : Text) : Prop :=
  Respaced m m' ∧ nameOf m' = nameOf m ∨ nameOf m = "include" ∧ Renamed m m'

theorem Retouched.respaced {m' : Text} (h : Retouched m m') (hm : nameOf m ≠ "include") :
    Respaced m m' ∧ nameOf m' = nameOf m :=
  h.resolve_right fun h => hm h.1

theorem Site.Fix.touches {c : Correction} (h : (Site.mk off offset (.tag m)).Fix on c) :
    Touches (offset + 2) m c := by
  rcases h with ⟨-, -, h⟩ | ⟨-, h⟩
  · exact Or.inl h
  · exact Or.inr h

/-- Fixes of a tag: all are applied. -/
theorem run_fixes (hname : IsWord (nameOf m).toList ∨ nameOf m = "#")
    (hsource : Text.Stands source (offset + 2) m) (hL : L.Pairwise Before)
    (hmem : ∀ c ∈ L, (Site.mk off offset (.tag m)).Fix on c) :
    ∃ m', Runs source L (offset + 2) m m' ∧ Retouched m m' ∧
      (OnlySpaces L → DiffersBySpaces m m' ∧ (nameOf m = "liquid" → m' = m)) ∧
      ((∀ c, (Site.mk off offset (.tag m)).Fix on c → c ∈ L) → Clean on off (.tag m')) := by
  obtain ⟨m', hruns, hchange, heven⟩ :=
    Spacing.run_markup hsource hL fun c hc => (hmem c hc).touches
  have hresp : Relation.ReflTransGen (MendsTo true) m m' → Respaced m m' :=
    Spacing.respaced_of_mendsTo (a := []) (Or.inl rfl)
  have hsame : Respaced m m' → nameOf m' = nameOf m := by
    intro h
    rcases hname with hw | hsign
    · exact h.nameOf_word hw rfl
    · rw [hsign]
      exact h.nameOf_sign hsign
  refine ⟨m', hruns, hchange.imp (fun h => ⟨hresp h.1, hsame (hresp h.1)⟩) fun h => ⟨h.1.1, h.2⟩,
    fun hspaces => ⟨?_, fun hliquid => ?_⟩, fun hall start c hc => ?_⟩
  · rcases hchange with ⟨hmends, -⟩ | ⟨⟨-, hkey⟩, -⟩
    · exact Spacing.differsBySpaces_of_mendsTo hmends
    · have htext : "render" = " " := hspaces _ hkey
      exact absurd htext (by decide)
  · -- nothing inside a `liquid` tag is mended
    obtain rfl : L = [] := by
      refine List.eq_nil_iff_forall_not_mem.2 fun c hc => ?_
      rcases hmem c hc with ⟨-, hne, -⟩ | ⟨-, hinclude, -⟩
      · exact hne hliquid
      · rw [hliquid] at hinclude
        exact absurd hinclude (by decide)
    exact hruns.eq_of_nil hsource
  rcases hc with ⟨hon, hliquid, hc⟩ | ⟨hon, hinclude, -⟩
  · have hliquid' : nameOf m ≠ "liquid" := by
      intro h
      rcases hchange with ⟨hmends, -⟩ | ⟨⟨hinclude, -⟩, -⟩
      · exact hliquid ((hsame (hresp hmends)).trans h)
      · rw [h] at hinclude
        exact absurd hinclude (by decide)
    exact (heven fun c hc => hall c (Or.inl ⟨hon, hliquid', hc⟩)).not_amends _ c hc
  · rcases hchange with ⟨hmends, hnot⟩ | ⟨-, hren⟩
    · have hinclude' : nameOf m = "include" := (hsame (hresp hmends)).symm.trans hinclude
      exact hnot ⟨hinclude', hall _ (Or.inr ⟨hon, hinclude', rfl⟩)⟩
    · rw [hren.nameOf] at hinclude
      exact absurd hinclude (by decide)

/-- The edit that takes a tag away comes after all others. -/
theorem exists_concat_delete (hL : L.Pairwise Before)
    (hmem : ∀ c ∈ L, (Site.mk off offset (.tag m)).Owns on c)
    (hdel : .delete ⟨offset, offset + (m.size + 4)⟩ ∈ L) :
    ∃ L', L = L' ++ [.delete ⟨offset, offset + (m.size + 4)⟩] ∧ L'.Pairwise Before ∧
      ∀ c ∈ L', (Site.mk off offset (.tag m)).Fix on c := by
  obtain ⟨X, Y, rfl⟩ := List.append_of_mem hdel
  obtain ⟨hX, hY, hcross⟩ := List.pairwise_append.1 hL
  have hfix : ∀ c ∈ X ++ .delete ⟨offset, offset + (m.size + 4)⟩ :: Y,
      c ≠ .delete ⟨offset, offset + (m.size + 4)⟩ → (Site.mk off offset (.tag m)).Fix on c :=
    fun c hc hne => (hmem c hc).resolve_right fun h => hne h.2
  obtain rfl : Y = [] := by
    refine List.eq_nil_iff_forall_not_mem.2 fun c hc => ?_
    have hb := List.rel_of_pairwise_cons hY hc
    have h1 := (hfix c (by simp [hc]) hb.2.symm).bounds
    have h2 := hb.start_le
    simp only [Correction.range] at h2
    exact absurd (Nat.le_trans h1.1 h2) (by simp)
  refine ⟨X, rfl, hX, fun c hc => ?_⟩
  exact hfix c (List.mem_append_left _ hc) (hcross c hc _ (List.mem_singleton.2 rfl)).2

/-- **Tags**: an `assign` tag goes when nothing inside it is mended; else all fixes are applied. -/
theorem run_tag (hname : IsWord (nameOf m).toList ∨ nameOf m = "#")
    (hsource : Text.Stands source offset (tagLexeme m)) (hL : L.Pairwise Before)
    (hmem : Edited on [⟨off, offset, .tag m⟩] L) :
    (nameOf m = "assign" ∧ ¬ OnlySpaces L ∧ Runs source L offset (tagLexeme m) []) ∨
    ∃ m', Runs source L offset (tagLexeme m) (tagLexeme m') ∧ Retouched m m' ∧
      (OnlySpaces L → DiffersBySpaces m m' ∧ (nameOf m = "liquid" → m' = m)) ∧
      (Complete on [⟨off, offset, .tag m⟩] L → Clean on off (.tag m')) ∧
      (Dropping [⟨off, offset, .tag m⟩] L → L = []) := by
  have hmem := edited_singleton hmem
  have hm := stands_markup hsource
  -- does the schedule delete the whole tag?
  by_cases hdel : .delete ⟨offset, offset + (m.size + 4)⟩ ∈ L
  · have hother : ¬ OnlySpaces L := by
      intro hspaces
      have htext : "" = " " := hspaces _ hdel
      exact absurd htext (by decide)
    obtain ⟨L, rfl, hL, hfix⟩ := exists_concat_delete hL hmem hdel
    -- the deletion is the only edit, so the tag goes, and it is an assignment
    by_cases hnil : L = []
    · subst hnil
      have hassign : nameOf m = "assign" := by
        rcases hmem _ hdel with h | h
        · have := h.bounds.1
          simp only [Correction.range] at this
          omega
        · exact h.1
      refine Or.inl ⟨hassign, hother, Runs.single hsource rfl ?_⟩
      rw [Body.size_tagLexeme]
      rfl
    · obtain ⟨m', hruns, hchange, -, hclean⟩ := run_fixes hname hm hL hfix
      refine Or.inr ⟨m', ?_, hchange, fun hspaces => absurd hspaces hother,
        fun hall => hclean fun c hc => ?_, fun hdrop => ?_⟩
      · -- the edits of the markup come first, and then the deletion reaches over them
        refine Runs.skip (a := ['{', '%']) hruns hnil ?_
        show offset + 2 + m.size < offset + (m.size + 4)
        omega
      · have hin := hall c _ (List.mem_singleton.2 rfl) hc
        refine (List.mem_append.1 hin).resolve_right fun h => ?_
        rw [List.mem_singleton.1 h] at hc
        have := hc.bounds.1
        simp only [Correction.range] at this
        omega
      · -- an edit of the markup is no drop
        obtain ⟨c, hc⟩ := List.exists_mem_of_ne_nil L hnil
        obtain ⟨s, hs, h⟩ := hdrop c (List.mem_append_left _ hc)
        rw [List.mem_singleton.1 hs] at h
        exact absurd h (hfix c hc).not_drop
  · have hfix : ∀ c ∈ L, (Site.mk off offset (.tag m)).Fix on c := by
      intro c hc
      refine (hmem c hc).resolve_right fun h => hdel ?_
      have hc' : c = .delete ⟨offset, offset + (m.size + 4)⟩ := h.2
      exact hc' ▸ hc
    obtain ⟨m', hruns, hchange, hspaces, hclean⟩ := run_fixes hname hm hL hfix
    refine Or.inr ⟨m', Runs.frame (a := ['{', '%']) hruns, hchange, hspaces, fun hall => ?_,
      fun hdrop => ?_⟩
    · exact hclean fun c hc => hall c _ (List.mem_singleton.2 rfl) hc
    · refine List.eq_nil_iff_forall_not_mem.2 fun c hc => ?_
      obtain ⟨s, hs, h⟩ := hdrop c hc
      rw [List.mem_singleton.1 hs] at h
      exact (hfix c hc).not_drop h

/-- Opening tags of blocks and raw blocks stay, with their names. -/
theorem run_opening (hword : IsWord (nameOf m).toList) (hassign : nameOf m ≠ "assign")
    (hinclude : nameOf m ≠ "include") (hsource : Text.Stands source offset (tagLexeme m))
    (hL : L.Pairwise Before) (hmem : Edited on [⟨off, offset, .tag m⟩] L) :
    ∃ m', Runs source L offset (tagLexeme m) (tagLexeme m') ∧ Respaced m m' ∧
      nameOf m' = nameOf m ∧ (OnlySpaces L → DiffersBySpaces m m') ∧
      (Complete on [⟨off, offset, .tag m⟩] L → Clean on off (.tag m')) ∧
      (Dropping [⟨off, offset, .tag m⟩] L → L = []) := by
  rcases run_tag (Or.inl hword) hsource hL hmem with
    ⟨h, -⟩ | ⟨m', hruns, hchange, hspaces, hclean, hdrop⟩
  · exact absurd h hassign
  · obtain ⟨hresp, hname⟩ := hchange.respaced hinclude
    exact ⟨m', hruns, hresp, hname, fun h => (hspaces h).1, hclean, hdrop⟩

/-! ### Bodies -/

theorem afterRaw_of_nameOf {m' chars : Text} (h : nameOf m' = nameOf m) :
    afterRaw off m' chars = afterRaw off m chars := by
  rw [afterRaw, afterRaw, h]

/-- Mending turns nothing on or off. -/
theorem Mends.after {b b' : Body} (h : Mends b b') (off : Off) :
    Edit.after off b' = Edit.after off b := by
  induction h generalizing off with
  | nil => rfl
  | text _ ih => exact ih off
  | output _ _ ih => exact ih off
  | tag _ _ _ ih => exact ih off
  | rename _ _ _ ih => exact ih off
  | drop _ _ ih => exact ih off
  | raw _ hname _ _ ih =>
    rw [Edit.after, Edit.after, afterRaw_of_nameOf hname]
    exact ih _
  | block _ _ _ _ _ _ ihi ih =>
    rw [Edit.after, Edit.after, ihi]
    exact ih _

/-- No fix is left in a body, wherever it stands. -/
def Cleaned (on : Off → String → Bool) (off : Off) (b : Body) : Prop :=
  ∀ start, ∀ s ∈ sites off start b, ∀ c, ¬ s.Fix on c

/-- What a round of edits makes of a body. -/
structure Outcome (on : Off → String → Bool) (source : Text) (off : Off) (offset : Nat)
    (L : List Correction) (b b' : Body) : Prop where
  runs : Runs source L offset b.spell b'.spell
  mends : Mends b b'
  respaces : OnlySpaces L → Respaces b b'
  clean : Complete on (sites off offset b) L → Cleaned on off b'
  fewer : Dropping (sites off offset b) L → L ≠ [] → assigns b' < assigns b

/-- Every schedule of edits of a body has an outcome. -/
def Settles (on : Off → String → Bool) (source : Text) (off : Off) (offset : Nat) (b : Body) : Prop :=
  ∀ L : List Correction, L.Pairwise Before → Edited on (sites off offset b) L →
    ∃ b', Outcome on source off offset L b b'

theorem settles_nil : Settles on source off offset .nil := by
  intro L _ hmem
  obtain rfl : L = [] := by
    refine List.eq_nil_iff_forall_not_mem.2 fun c hc => ?_
    obtain ⟨s, hs, -⟩ := hmem c hc
    cases hs
  refine ⟨.nil, Runs.nil, .nil, fun _ => .nil, fun _ _ s hs => ?_, fun _ h => absurd rfl h⟩
  cases hs

theorem settles_text {chars : Text} {r : Body}
    (h : Settles on source off (offset + chars.size) r) :
    Settles on source off offset (.text chars r) := by
  intro L hL hmem
  obtain ⟨r', hr⟩ := h L hL hmem
  exact ⟨.text chars r', hr.runs.behind, .text hr.mends, fun hspaces => .text (hr.respaces hspaces),
    fun hall start => hr.clean hall _, hr.fewer⟩

theorem settles_output {r : Body} (hsource : Text.Stands source offset (Body.output m r).spell)
    (h : Settles on source off (offset + (m.size + 4)) r) :
    Settles on source off offset (.output m r) := by
  intro L hL hmem
  -- the edits of what follows come first, as they stand further right
  obtain ⟨L₁, L₂, rfl, ⟨hL₁, hmem₁⟩, ⟨hL₂, hmem₂⟩, hcomplete, hdropping⟩ :=
    exists_parts_sites (S := [⟨off, offset, .output m⟩]) (x := offset + (m.size + 4))
      (by simp [Site.stop, Piece.size]) (fun s hs => (mem_sites_bounds hs).1) hL hmem
  rw [spell_output_append] at hsource
  obtain ⟨m', hruns, hresp, hspaces, hclean⟩ := run_output hsource.left hL₂ hmem₂
  obtain ⟨r', hr⟩ := h L₁ hL₁ hmem₁
  refine ⟨.output m' r', ?_, .output hresp hr.mends, fun honly => ?_, fun hall start s hs => ?_,
    fun hdrop hne => ?_⟩
  · rw [spell_output_append, spell_output_append]
    exact Runs.append ((size_output_chars m).symm ▸ hr.runs) hruns
  · exact .output hspaces (hr.respaces (onlySpaces_append.1 honly).1)
  · obtain ⟨h1, h2⟩ := hcomplete hall
    rcases List.mem_cons.1 hs with rfl | hs
    · exact hclean h2 start
    · exact hr.clean h1 _ s hs
  · obtain ⟨h1, h2⟩ := hdropping hdrop
    obtain rfl := eq_nil_of_dropping (fun _ => id) h2
    rw [List.append_nil] at hne
    exact hr.fewer h1 hne

theorem settles_tag {r : Body} (hname : IsWord (nameOf m).toList ∨ nameOf m = "#")
    (hsource : Text.Stands source offset (Body.tag m r).spell)
    (h : Settles on source off (offset + (m.size + 4)) r) :
    Settles on source off offset (.tag m r) := by
  intro L hL hmem
  obtain ⟨L₁, L₂, rfl, ⟨hL₁, hmem₁⟩, ⟨hL₂, hmem₂⟩, hcomplete, hdropping⟩ :=
    exists_parts_sites (S := [⟨off, offset, .tag m⟩]) (x := offset + (m.size + 4))
      (by simp [Site.stop, Piece.size]) (fun s hs => (mem_sites_bounds hs).1) hL hmem
  rw [Body.spell_tag] at hsource
  obtain ⟨r', hr⟩ := h L₁ hL₁ hmem₁
  have hle := hr.mends.assigns_le
  have hruns' : Runs source L₁ (offset + Text.size (tagLexeme m)) r.spell r'.spell := by
    rw [Body.size_tagLexeme]
    exact hr.runs
  rcases run_tag hname hsource.left hL₂ hmem₂ with
    ⟨hassign, hother, hruns⟩ | ⟨m', hruns, hchange, hspaces, hclean, hdrop₂⟩
  · refine ⟨r', ?_, .drop hassign hr.mends, fun honly => ?_,
      fun hall => hr.clean (hcomplete hall).1, fun _ _ => ?_⟩
    · rw [Body.spell_tag]
      exact hruns'.append hruns
    · exact absurd (onlySpaces_append.1 honly).2 hother
    · rw [assigns, if_pos hassign]
      omega
  · refine ⟨.tag m' r', ?_, ?_, fun honly => ?_, fun hall start s hs => ?_, fun hdrop hne => ?_⟩
    · rw [Body.spell_tag, Body.spell_tag]
      exact hruns'.append hruns
    · rcases hchange with ⟨hresp, hsame⟩ | ⟨hinclude, hren⟩
      · exact .tag hresp hsame hr.mends
      · exact .rename hinclude hren hr.mends
    · obtain ⟨h1, h2⟩ := onlySpaces_append.1 honly
      obtain ⟨hmarkup, hliquid⟩ := hspaces h2
      exact .tag hmarkup hliquid (hr.respaces h1)
    · obtain ⟨h1, h2⟩ := hcomplete hall
      rcases List.mem_cons.1 hs with rfl | hs
      · exact hclean h2 start
      · exact hr.clean h1 _ s hs
    · obtain ⟨h1, h2⟩ := hdropping hdrop
      obtain rfl := hdrop₂ h2
      rw [List.append_nil] at hne
      have hlt := hr.fewer h1 hne
      -- an `assign` tag that stays is still one
      have hcount : (if nameOf m' = "assign" then 1 else 0)
          ≤ (if nameOf m = "assign" then 1 else 0) := by
        rcases hchange with ⟨-, hsame⟩ | ⟨-, hren⟩
        · rw [hsame]
        · rw [hren.nameOf, if_neg (by decide)]
          exact Nat.zero_le _
      rw [assigns, assigns]
      omega

/-- What a round of edits makes of an end tag and the body after it. -/
structure EndOutcome (on : Off → String → Bool) (source : Text) (off : Off) (offset : Nat)
    (L : List Correction) (close : Text) (r : Body) (close' : Text) (r' : Body) : Prop where
  runs : Runs source L offset (tagLexeme close ++ r.spell) (tagLexeme close' ++ r'.spell)
  respaced : Respaced close close'
  mends : Mends r r'
  respaces : OnlySpaces L → Respaces r r'
  clean : Complete on (⟨off, offset, .ending close⟩ :: sites off (offset + (close.size + 4)) r) L →
    Clean on off (.ending close') ∧ Cleaned on off r'
  fewer : Dropping (⟨off, offset, .ending close⟩ :: sites off (offset + (close.size + 4)) r) L →
    L ≠ [] → assigns r' < assigns r

theorem exists_endOutcome {close : Text} {r : Body}
    (hsource : Text.Stands source offset (tagLexeme close ++ r.spell))
    (h : Settles on source off (offset + (close.size + 4)) r) (hL : L.Pairwise Before)
    (hmem : Edited on (⟨off, offset, .ending close⟩ :: sites off (offset + (close.size + 4)) r) L) :
    ∃ close' r', EndOutcome on source off offset L close r close' r' := by
  obtain ⟨L₁, L₂, rfl, ⟨hL₁, hmem₁⟩, ⟨hL₂, hmem₂⟩, hcomplete, hdropping⟩ :=
    exists_parts_sites (S := [⟨off, offset, .ending close⟩]) (x := offset + (close.size + 4))
      (by simp [Site.stop, Piece.size]) (fun s hs => (mem_sites_bounds hs).1) hL hmem
  obtain ⟨close', hruns, hresp, hclean⟩ := run_ending_tag hsource.left hL₂ hmem₂
  obtain ⟨r', hr⟩ := h L₁ hL₁ hmem₁
  refine ⟨close', r', ?_, hresp, hr.mends, fun honly => ?_, fun hall => ?_, fun hdrop hne => ?_⟩
  · exact Runs.append ((Body.size_tagLexeme close).symm ▸ hr.runs) hruns
  · exact hr.respaces (onlySpaces_append.1 honly).1
  · obtain ⟨h1, h2⟩ := hcomplete hall
    exact ⟨hclean h2, hr.clean h1⟩
  · obtain ⟨h1, h2⟩ := hdropping hdrop
    obtain rfl := eq_nil_of_dropping (fun _ => id) h2
    rw [List.append_nil] at hne
    exact hr.fewer h1 hne

theorem settles_raw {chars close : Text} {r : Body} (hname : nameOf m ∈ Liquid.rawTags)
    (hsource : Text.Stands source offset (Body.raw m chars close r).spell)
    (h : Settles on source (afterRaw off m chars)
      (offset + (m.size + 4) + chars.size + (close.size + 4)) r) :
    Settles on source off offset (.raw m chars close r) := by
  intro L hL hmem
  have hother : nameOf m ≠ "assign" ∧ nameOf m ≠ "include" := by
    constructor <;> intro he <;> rw [he] at hname <;> exact absurd hname (by decide)
  rw [Body.spell_raw] at hsource
  have hend := hsource.right.right
  rw [Body.size_tagLexeme] at hend
  -- the opening tag, then the end tag and the rest
  obtain ⟨L₁, L₂, rfl, ⟨hL₁, hmem₁⟩, ⟨hL₂, hmem₂⟩, hcomplete, hdropping⟩ :=
    exists_parts_sites (S := [⟨afterRaw off m chars, offset, .tag m⟩]) (x := offset + (m.size + 4))
      (by simp [Site.stop, Piece.size])
      (fun s hs => by
        rcases List.mem_cons.1 hs with rfl | hs
        · exact Nat.le_add_right _ _
        · have := (mem_sites_bounds hs).1
          omega) hL hmem
  obtain ⟨m', hruns, hresp, hsame, hspaces, hclean, hdrop⟩ := run_opening
    (Liquid.isWord_of_mem_rawTags _ hname) hother.1 hother.2 hsource.left hL₂ hmem₂
  obtain ⟨close', r', hr⟩ := exists_endOutcome hend h hL₁ hmem₁
  refine ⟨.raw m' chars close' r', ?_, .raw hresp hsame hr.respaced hr.mends, fun honly => ?_,
    fun hall start s hs => ?_, fun hdropall hne => ?_⟩
  · rw [Body.spell_raw, Body.spell_raw]
    have hbody := hr.runs.append (s := chars) Runs.nil
    rw [List.append_nil] at hbody
    exact Runs.append ((Body.size_tagLexeme m).symm ▸ hbody) hruns
  · obtain ⟨h1, h2⟩ := onlySpaces_append.1 honly
    exact .raw (hspaces h2) hr.respaced.unspaced (hr.respaces h1)
  · obtain ⟨h1, h2⟩ := hcomplete hall
    obtain ⟨hending, hrest⟩ := hr.clean h1
    rw [sites, afterRaw_of_nameOf hsame] at hs
    rcases List.mem_cons.1 hs with rfl | hs
    · exact hclean h2 start
    · rcases List.mem_cons.1 hs with rfl | hs
      · exact hending _
      · exact hrest _ s hs
  · obtain ⟨h1, h2⟩ := hdropping hdropall
    obtain rfl := hdrop h2
    rw [List.append_nil] at hne
    exact hr.fewer h1 hne

theorem settles_block {close : Text} {inner r : Body} (hname : nameOf m ∈ Liquid.blockTags)
    (hclose : nameOf close = "end" ++ nameOf m)
    (hsource : Text.Stands source offset (Body.block m inner close r).spell)
    (hinner : Settles on source off (offset + (m.size + 4)) inner)
    (h : Settles on source (after off inner)
      (offset + (m.size + 4) + inner.spell.size + (close.size + 4)) r) :
    Settles on source off offset (.block m inner close r) := by
  intro L hL hmem
  have hother : nameOf m ≠ "assign" ∧ nameOf m ≠ "include" := by
    constructor <;> intro he <;> rw [he] at hname <;> exact absurd hname (by decide)
  have hword := Liquid.isWord_of_mem_blockTags _ hname
  rw [Body.spell_block] at hsource
  have hend := hsource.right.right
  rw [Body.size_tagLexeme] at hend
  -- the opening tag, then the body inside, then the end tag and the rest
  obtain ⟨L₁, L₂, rfl, ⟨hL₁, hmem₁⟩, ⟨hL₂, hmem₂⟩, hcomplete, hdropping⟩ :=
    exists_parts_sites (S := [⟨off, offset, .tag m⟩]) (x := offset + (m.size + 4))
      (by simp [Site.stop, Piece.size])
      (fun s hs => by
        rcases List.mem_append.1 hs with hs | hs
        · exact (mem_sites_bounds hs).1
        · rcases List.mem_cons.1 hs with rfl | hs
          · exact Nat.le_add_right _ _
          · have := (mem_sites_bounds hs).1
            omega) hL hmem
  obtain ⟨L₃, L₄, rfl, ⟨hL₃, hmem₃⟩, ⟨hL₄, hmem₄⟩, hcomplete', hdropping'⟩ :=
    exists_parts_sites (S := sites off (offset + (m.size + 4)) inner)
      (x := offset + (m.size + 4) + inner.spell.size) (fun s hs => (mem_sites_bounds hs).2)
      (fun s hs => by
        rcases List.mem_cons.1 hs with rfl | hs
        · exact Nat.le_refl _
        · have := (mem_sites_bounds hs).1
          omega) hL₁ hmem₁
  obtain ⟨m', hruns, hresp, hsame, hspaces, hclean, hdrop⟩ :=
    run_opening hword hother.1 hother.2 hsource.left hL₂ hmem₂
  obtain ⟨inner', hi⟩ := hinner L₄ hL₄ hmem₄
  obtain ⟨close', r', hr⟩ := exists_endOutcome hend h hL₃ hmem₃
  have hsame' : nameOf close' = nameOf close := by
    rw [hclose]
    exact hr.respaced.nameOf_word (Liquid.isWord_end hword) hclose
  refine ⟨.block m' inner' close' r', ?_,
    .block hresp hsame hi.mends hr.respaced hsame' hr.mends, fun honly => ?_,
    fun hall start s hs => ?_, fun hdropall hne => ?_⟩
  · rw [Body.spell_block, Body.spell_block]
    exact Runs.append ((Body.size_tagLexeme m).symm ▸ hr.runs.append hi.runs) hruns
  · obtain ⟨h1, h2⟩ := onlySpaces_append.1 honly
    obtain ⟨h3, h4⟩ := onlySpaces_append.1 h1
    exact .block (hspaces h2) (hi.respaces h4) hr.respaced.unspaced (hr.respaces h3)
  · obtain ⟨h1, h2⟩ := hcomplete hall
    obtain ⟨h3, h4⟩ := hcomplete' h1
    obtain ⟨hending, hrest⟩ := hr.clean h3
    rw [sites, hi.mends.after off] at hs
    rcases List.mem_cons.1 hs with rfl | hs
    · exact hclean h2 start
    · rcases List.mem_append.1 hs with hs | hs
      · exact hi.clean h4 _ s hs
      · rcases List.mem_cons.1 hs with rfl | hs
        · exact hending _
        · exact hrest _ s hs
  · obtain ⟨h1, h2⟩ := hdropping hdropall
    obtain ⟨h3, h4⟩ := hdropping' h1
    obtain rfl := hdrop h2
    have hle₁ := hi.mends.assigns_le
    have hle₂ := hr.mends.assigns_le
    rw [assigns, assigns]
    by_cases hnil : L₃ = []
    · have := hi.fewer h4 (by simpa [hnil] using hne)
      omega
    · have := hr.fewer h3 hnil
      omega

/-- **A round of edits over a body** has an outcome. -/
theorem settles_body {b : Body} {parent : Option String} (hfits : b.Fits parent)
    (hsource : Text.Stands source offset b.spell) : Settles on source off offset b := by
  -- each construct is settled together with what follows it
  induction b generalizing parent off offset with
  | nil => exact settles_nil
  | text chars r ih => exact settles_text (ih hfits hsource.right)
  | output m r ih =>
    refine settles_output hsource (ih hfits ?_)
    have hrest := Text.Stands.right (s := '{' :: '{' :: (m ++ ['}', '}'])) (t := r.spell)
      (by simpa using hsource)
    have hsize := size_output m .nil
    simp only [Body.spell_output, Body.spell_nil, Text.size_nil] at hsize
    rwa [hsize] at hrest
  | tag m r ih =>
    refine settles_tag (isWord_or_sign_of_allowed hfits.1) hsource (ih hfits.2 ?_)
    rw [← Body.size_tagLexeme]
    exact hsource.right
  | raw m chars close r ih =>
    refine settles_raw hfits.1 hsource (ih hfits.2 ?_)
    rw [Body.spell_raw] at hsource
    rw [← Body.size_tagLexeme, ← Body.size_tagLexeme]
    exact hsource.right.right.right
  | block m inner close r ihi ih =>
    obtain ⟨h1, h2, h3, h4⟩ := hfits
    have hspell := hsource
    rw [Body.spell_block] at hspell
    refine settles_block h1 h2 hsource (ihi h3 ?_) (ih h4 ?_)
    · rw [← Body.size_tagLexeme]
      exact hspell.right.left
    · rw [← Body.size_tagLexeme, ← Body.size_tagLexeme]
      exact hspell.right.right.right

end LiquidLint.Edit
