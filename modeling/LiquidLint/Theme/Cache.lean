import LiquidLint.Theme.Basic

/-!
# Kept trees

A template is parsed when its tree is first asked for. The result is kept in a *cell* for the next time,
until the template gets another source. A cell is nothing but what somebody put there, so it is to be
proved that it still belongs to the source when it is read.

JSON files are parsed once as well. Nothing gives a JSON file another source, so what it holds is the
same whether it was kept or is computed again, and it has no cell here.
-/

namespace LiquidLint

/-- What parsing a template gives: its syntax tree, or the reason why it has none. -/
abbrev ParseResult := Except Liquid.ParseError Liquid.Node

/-- The cell of a template: what parsing gave, if the tree was asked for since the cell was emptied. -/
structure TreeCell where
  kept : Option ParseResult := none
deriving Repr

namespace TreeCell

/-- What is read through the cell of a template: what it keeps, or else what parsing gives now. -/
def read (cell : TreeCell) (t : Template) : ParseResult := cell.kept.getD t.root

/-- The cell once it has been read. -/
def fill (cell : TreeCell) (t : Template) : TreeCell := ⟨some (cell.read t)⟩

end TreeCell

/-- A theme in memory, with what is kept of earlier parsing. -/
structure CachedTheme where
  theme : Theme
  /-- The cells of the templates, in the order of the templates. -/
  cells : List TreeCell

/-- The templates of a theme with what parsing them gives. -/
def Theme.parsed (t : Theme) : List (Template × ParseResult) := t.templates.map fun s => (s, s.root)

namespace CachedTheme

/-- A theme of which no tree has been asked for. -/
def ofTheme (theme : Theme) : CachedTheme := ⟨theme, theme.templates.map fun _ => {}⟩

/-- The templates with what is read through their cells. -/
def parsed (c : CachedTheme) : List (Template × ParseResult) :=
  List.zipWith (fun t cell => (t, cell.read t)) c.theme.templates c.cells

/-- The theme once all its trees have been asked for. -/
def fill (c : CachedTheme) : CachedTheme :=
  { c with cells := List.zipWith (fun t cell => cell.fill t) c.theme.templates c.cells }

/-- Empties the cell of the first template with a given path. -/
def emptyIn (path : Path) : List Template → List TreeCell → List TreeCell
  | t :: ts, cell :: cells =>
    if t.relativePath.same path then {} :: cells else cell :: emptyIn path ts cells
  | _, cells => cells

/-- The theme with another source for the template with a given path, whose tree is dropped. -/
def setSource (c : CachedTheme) (path : Path) (source : Text) : CachedTheme :=
  { theme := c.theme.setSource path source, cells := emptyIn path c.theme.templates c.cells }

end CachedTheme

end LiquidLint
