import LiquidLint.Check.Event
import Mathlib.Data.List.Forall2

/-!
# Kept trees are those of the sources

A cell is fresh for a template when it is empty or keeps what parsing the source of the template gives,
and a theme in memory is fresh when each of its templates has a cell that is fresh for it. Nothing in a
cell says which source it came from, so this is an invariant: a new theme has it, reading all trees
keeps it, and so does another source for a template, because the cell is emptied with it. As long as it
holds, what is read through the cells is what parsing gives (`CachedTheme.Fresh.parsed_eq`).
-/

namespace LiquidLint

/-! ### Cells -/

namespace TreeCell

variable {cell : TreeCell} {t : Template}

/-- The cell keeps no tree of another source than that of the template. -/
def Fresh (cell : TreeCell) (t : Template) : Prop :=
  ∀ tree, cell.kept = some tree → tree = Liquid.parse t.source

theorem fresh_empty (t : Template) : Fresh {} t := by
  intro tree h
  cases h

/-- What a fresh cell says is what parsing gives. -/
theorem Fresh.read_eq (h : cell.Fresh t) : cell.read t = t.root := by
  unfold read
  cases hkept : cell.kept with
  | none => rfl
  | some tree => exact h tree hkept

theorem Fresh.fill_eq (h : cell.Fresh t) : cell.fill t = ⟨some t.root⟩ := by
  rw [fill, h.read_eq]

theorem Fresh.fill (h : cell.Fresh t) : (cell.fill t).Fresh t := by
  rw [h.fill_eq]
  rintro tree ⟨⟩
  rfl

end TreeCell

/-! ### Themes -/

namespace CachedTheme

variable {c : CachedTheme} {path : Path} {source : Text}

@[simp] theorem theme_ofTheme (theme : Theme) : (ofTheme theme).theme = theme := rfl

@[simp] theorem theme_fill (c : CachedTheme) : c.fill.theme = c.theme := rfl

@[simp] theorem theme_setSource (c : CachedTheme) (path : Path) (source : Text) :
    (c.setSource path source).theme = c.theme.setSource path source := rfl

/-- **No cell is stale**: each template has a cell, and it is fresh for the template. -/
def Fresh (c : CachedTheme) : Prop :=
  List.Forall₂ (fun t cell => TreeCell.Fresh cell t) c.theme.templates c.cells

theorem fresh_ofTheme (theme : Theme) : (ofTheme theme).Fresh := by
  unfold Fresh ofTheme
  rw [List.forall₂_map_right_iff, List.forall₂_same]
  exact fun t _ => TreeCell.fresh_empty t

/-- **What is read through fresh cells** is what parsing the sources gives. -/
theorem Fresh.parsed_eq (h : c.Fresh) : c.parsed = c.theme.parsed := by
  obtain ⟨⟨root, ts, js⟩, cells⟩ := c
  unfold Fresh at h
  unfold parsed Theme.parsed
  dsimp only at h ⊢
  induction h with
  | nil => rfl
  | cons hcell _ ih => rw [List.zipWith_cons_cons, List.map_cons, hcell.read_eq, ih]

/-- A cell that is not emptied with the source still has the old tree, and so hides that the new source
does not parse. -/
example :
    let t : Template := ⟨⟨⟨"a.liquid"⟩, ['a']⟩, ⟨"a.liquid"⟩⟩
    let read := (ofTheme ⟨⟨"."⟩, [t], []⟩).fill
    let stale : CachedTheme :=
      { read with theme := read.theme.setSource t.relativePath ['\x7b', '\x7b'] }
    stale.parsed.map (·.2.isOk) = [true] ∧ stale.theme.parsed.map (·.2.isOk) = [false] ∧
      (read.setSource t.relativePath ['\x7b', '\x7b']).parsed.map (·.2.isOk) = [false] := by
  decide +kernel

/-- Once all trees have been read, the cells keep them. -/
theorem Fresh.cells_fill (h : c.Fresh) :
    c.fill.cells = c.theme.templates.map fun t => ⟨some (Liquid.parse t.source)⟩ := by
  obtain ⟨⟨root, ts, js⟩, cells⟩ := c
  unfold Fresh at h
  unfold CachedTheme.fill
  dsimp only at h ⊢
  induction h with
  | nil => rfl
  | cons hcell _ ih =>
    rw [List.zipWith_cons_cons, List.map_cons, hcell.fill_eq, ih]
    rfl

/-- Reading trees leaves no stale cell. -/
theorem Fresh.fill (h : c.Fresh) : c.fill.Fresh := by
  show List.Forall₂ _ c.theme.templates c.fill.cells
  rw [h.cells_fill, List.forall₂_map_right_iff, List.forall₂_same]
  rintro t - tree ⟨⟩
  rfl

/-- **Another source leaves no stale cell**: the template that gets it is the one whose cell is
emptied. -/
theorem Fresh.setSource (h : c.Fresh) : (c.setSource path source).Fresh := by
  obtain ⟨⟨root, ts, js⟩, cells⟩ := c
  unfold Fresh at h ⊢
  unfold CachedTheme.setSource Theme.setSource
  dsimp only at h ⊢
  induction h with
  | nil => exact .nil
  | @cons t cell ts cells hcell hcells ih =>
    unfold Theme.setSourceIn emptyIn
    -- both lists are searched for the same path, so they change in the same place
    split
    · exact .cons (TreeCell.fresh_empty _) hcells
    · exact .cons hcell ih

end CachedTheme

/-! ### Events -/

/-- The events of a theme, template by template. -/
theorem Theme.events_eq (t : Theme) : t.events =
    .onTheme t :: (t.templates.flatMap Template.events ++ t.jsonFiles.map .onJson ++ [.onEnd t]) := by
  have htemplates : t.parsed.flatMap (fun e => e.1.eventsOf e.2) =
      t.templates.flatMap Template.events := by
    unfold Theme.parsed
    rw [List.flatMap_map]
    rfl
  unfold events eventsOf
  exact congrArg (fun es => .onTheme t :: (es ++ t.jsonFiles.map .onJson ++ [.onEnd t])) htemplates

/-- The events of a theme whose trees are read through fresh cells. -/
theorem CachedTheme.Fresh.eventsOf_parsed {c : CachedTheme} (h : c.Fresh) :
    c.theme.eventsOf c.parsed = c.theme.events := by
  rw [h.parsed_eq]
  rfl

end LiquidLint
