import LiquidLint.Regex.Engine
import LiquidLint.Regex.Match
import LiquidLint.Regex.Property

/-!
# Reading regular expressions

A pattern is read from left to right with a stack of open groups. Letters between `(?` and `)` or
`:` set options for the rest of the group or for the group. `parse?` has no answer for a pattern that
is malformed or would grow too large.
-/

namespace LiquidLint.Regex

/-- The options in force. -/
structure Options where
  /-- Letters match in any case. -/
  caseless : Bool := false
  /-- `^` and `$` also match at line ends. -/
  multiLine : Bool := false
  /-- The dot also matches line ends. -/
  dotAll : Bool := false
  /-- Repetition prefers fewer rounds unless marked. -/
  swapGreed : Bool := false
  /-- Classes are those of Unicode rather than of ASCII. -/
  unicode : Bool := true
  /-- White space and comments in the pattern do not count. -/
  extended : Bool := false
  /-- A carriage return also ends lines. -/
  crlf : Bool := false
deriving DecidableEq, Repr

namespace Options

/-- A literal or class as it matches under the options. -/
def folded (o : Options) (s : CharSet) : CharSet := if o.caseless then .caseless s else s

/-- The word characters. -/
def word (o : Options) : CharSet := if o.unicode then .word else .asciiWord

/-- The digits. -/
def digit (o : Options) : CharSet := if o.unicode then .digit else .between '0' '9'

/-- The white space. -/
def blank (o : Options) : CharSet := if o.unicode then .blank else .asciiBlank

/-- Sets the option with a given letter. -/
def set? (o : Options) (letter : Char) (value : Bool) : Option Options :=
  match letter with
  | 'i' => some { o with caseless := value }
  | 'm' => some { o with multiLine := value }
  | 's' => some { o with dotAll := value }
  | 'U' => some { o with swapGreed := value }
  | 'u' => some { o with unicode := value }
  | 'x' => some { o with extended := value }
  | 'R' => some { o with crlf := value }
  | _ => none

end Options

/-! ### Blanks and numbers -/

/-- The rest of a pattern after white space and comments, read in at most `fuel` steps. -/
def skipExtended : Nat → Text → Text
  | 0, t => t
  | fuel + 1, t =>
    match t.trimStart with
    | '#' :: rest => skipExtended fuel ((rest.dropWhile (· != '\n')).drop 1)
    | t => t

/-- The rest of a pattern after what does not count under the options. -/
def skip (o : Options) (t : Text) : Text := if o.extended then skipExtended t.length t else t

/-- The number that digits in a base spell. -/
def number (base : Nat) (digits : List Nat) : Nat := digits.foldl (fun n d => n * base + d) 0

/-- The value of a hexadecimal digit. -/
def hexValue? (c : Char) : Option Nat :=
  if c.isDigit then some (c.toNat - '0'.toNat)
  else if 'a' ≤ c && c ≤ 'f' then some (c.toNat - 'a'.toNat + 10)
  else if 'A' ≤ c && c ≤ 'F' then some (c.toNat - 'A'.toNat + 10)
  else none

/-- The character with a code point, if there is one. -/
def charOf? (n : Nat) : Option Char := if n.isValidChar then some (Char.ofNat n) else none

/-- Reads a decimal number below 2³² with blanks around it. -/
def decimal? (t : Text) : Option (Nat × Text) :=
  let t := t.trimStart
  let digits := t.takeWhile Char.isDigit
  let n := number 10 (digits.map fun c => c.toNat - '0'.toNat)
  if digits.isEmpty || Nat.pow 2 32 ≤ n then none
  else some (n, Text.trimStart (t.dropWhile Char.isDigit))

/-! ### Escapes -/

/-- What a backslash and the characters after it stand for. -/
inductive Escape where
  | literal (c : Char)
  | class (s : CharSet)
  | look (l : Look)
deriving Repr

/-- Reads a hexadecimal escape of `width` digits, or of any number of them in braces. -/
def hexEscape? (width : Nat) (t : Text) : Option (Char × Text) :=
  match t with
  | '{' :: rest => do
    let (body, rest) ← Text.cut? ['}'] rest
    let digits ← (body.filter (! isBlank ·)).mapM hexValue?
    if digits.isEmpty then none
    else return (← charOf? (number 16 digits), rest)
  | t => do
    let digits ← (t.take width).mapM hexValue?
    if digits.length < width then none
    else return (← charOf? (number 16 digits), t.drop width)

/-- Whether a backslash before an ASCII character makes it a literal. -/
def isEscapable (c : Char) : Bool :=
  c.toNat < 128 && !c.isAlphanum && c != '<' && c != '>'

/-- Reads the kind of a word boundary in braces; `none` inside when the braces hold something else. -/
def boundaryKind? (o : Options) (t : Text) : Option (Option Look × Text) :=
  match t with
  | '{' :: rest =>
    match rest.head? with
    | none => none
    | some c =>
      if c.isAlpha || c == '-' then
        match Text.cut? ['}'] rest with
        | none => none
        | some (body, after) =>
          match String.ofList body with
          | "start" => some (some (.wordStart o.word), after)
          | "end" => some (some (.wordEnd o.word), after)
          | "start-half" => some (some (.wordStartHalf o.word), after)
          | "end-half" => some (some (.wordEndHalf o.word), after)
          | _ => none
      else some (none, t)
  | t => some (none, t)

/-- A class without the characters of `s`, which needs Unicode. -/
def outside? (o : Options) (s : CharSet) : Option CharSet :=
  if o.unicode then some (.compl s) else none

/-- Reads the name of a property: one letter, or a text in braces, which a caret negates. Yields whether
it is negated. -/
def propertyName? (t : Text) : Option (Bool × Text × Text) :=
  match t with
  | '{' :: t => do
    let (name, t) ← Text.cut? ['}'] t
    match name with
    | '^' :: name => return (true, name, t)
    | name => return (false, name, t)
  | c :: t => some (false, [c], t)
  | [] => none

/-- Reads a property after its letter. -/
def property? (o : Options) (negated : Bool) (t : Text) : Option (CharSet × Text) := do
  let (inverted, name, t) ← propertyName? t
  guard o.unicode
  let s := o.folded (← CharSet.property? name)
  return (if negated != inverted then .compl s else s, t)

/-- Reads an escape after its backslash. -/
def escape? (o : Options) : Text → Option (Escape × Text)
  | [] => none
  | c :: t =>
    match c with
    | 'a' => some (.literal '\x07', t)
    | 'f' => some (.literal '\x0c', t)
    | 't' => some (.literal '\t', t)
    | 'n' => some (.literal '\n', t)
    | 'r' => some (.literal '\r', t)
    | 'v' => some (.literal '\x0b', t)
    | 'd' => some (.class o.digit, t)
    | 'D' => (outside? o o.digit).map fun s => (.class s, t)
    | 's' => some (.class o.blank, t)
    | 'S' => (outside? o o.blank).map fun s => (.class s, t)
    | 'w' => some (.class o.word, t)
    | 'W' => (outside? o o.word).map fun s => (.class s, t)
    | 'p' => (property? o false t).map fun (s, t) => (.class s, t)
    | 'P' => (property? o true t).map fun (s, t) => (.class s, t)
    | 'A' => some (.look .textStart, t)
    | 'z' => some (.look .textEnd, t)
    | 'B' => some (.look (.noBoundary o.word), t)
    | '<' => some (.look (.wordStart o.word), t)
    | '>' => some (.look (.wordEnd o.word), t)
    | 'b' => (boundaryKind? o t).map fun (l, t) => (.look (l.getD (.boundary o.word)), t)
    | 'x' => (hexEscape? 2 t).map fun (c, t) => (.literal c, t)
    | 'u' => (hexEscape? 4 t).map fun (c, t) => (.literal c, t)
    | 'U' => (hexEscape? 8 t).map fun (c, t) => (.literal c, t)
    | c => if isEscapable c then some (.literal c, t) else none

/-! ### Classes -/

/-- The ASCII class with a given name. -/
def asciiClass? (name : String) : Option CharSet :=
  match name with
  | "alnum" => some (.unions [.between '0' '9', .between 'A' 'Z', .between 'a' 'z'])
  | "alpha" => some (.unions [.between 'A' 'Z', .between 'a' 'z'])
  | "ascii" => some (.range 0 0x7F)
  | "blank" => some (.unions [.single '\t', .single ' '])
  | "cntrl" => some (.unions [.range 0 0x1F, .range 0x7F 0x7F])
  | "digit" => some (.between '0' '9')
  | "graph" => some (.between '!' '~')
  | "lower" => some (.between 'a' 'z')
  | "print" => some (.between ' ' '~')
  | "punct" =>
    some (.unions [.between '!' '/', .between ':' '@', .between '[' (Char.ofNat 0x60),
      .between '{' '~'])
  | "space" => some .asciiBlank
  | "upper" => some (.between 'A' 'Z')
  | "word" => some .asciiWord
  | "xdigit" => some (.unions [.between '0' '9', .between 'A' 'F', .between 'a' 'f'])
  | _ => none

/-- Reads a named ASCII class after its opening bracket. -/
def namedClass? (o : Options) : Text → Option (CharSet × Text)
  | ':' :: t => do
    let (negated, t) := match t with
      | '^' :: t => (true, t)
      | t => (false, t)
    let (name, t) ← Text.cut? [':', ']'] t
    let s ← asciiClass? (String.ofList name)
    if negated then return (← outside? o s, t) else return (s, t)
  | _ => none

/-- An operation between two parts of a class. -/
inductive ClassOp where
  | inter
  | diff
  | symDiff
deriving DecidableEq, Repr

/-- The result of an operation on two parts of a class. -/
def ClassOp.apply (o : Options) (op : ClassOp) (a b : CharSet) : CharSet :=
  match op with
  | .inter => .inter (o.folded a) (o.folded b)
  | .diff => .diff (o.folded a) (o.folded b)
  | .symDiff => .symDiff (o.folded a) (o.folded b)

/-- A class that is being read: whether it is negated, the part before the last operation, and the
items after it, newest first. -/
structure ClassLevel where
  negated : Bool
  left : Option (CharSet × ClassOp)
  items : List CharSet
deriving Repr

namespace ClassLevel

/-- The characters of the class so far. -/
def current (o : Options) (l : ClassLevel) : CharSet :=
  let right := CharSet.unions l.items.reverse
  match l.left with
  | some (left, op) => op.apply o left right
  | none => right

/-- Adds an item. -/
def push (l : ClassLevel) (s : CharSet) : ClassLevel := { l with items := s :: l.items }

/-- Ends a part of the class at an operation. -/
def operate (o : Options) (l : ClassLevel) (op : ClassOp) : ClassLevel :=
  { l with left := some (l.current o, op), items := [] }

/-- The set of a finished class. -/
def finish? (o : Options) (l : ClassLevel) : Option CharSet :=
  let s := o.folded (l.current o)
  if l.negated then outside? o s else some s

end ClassLevel

/-- The dashes at the start of a class, which are literals, and the rest. -/
def leadingDashes (o : Options) : Nat → List CharSet → Text → List CharSet × Text
  | 0, items, t => (items, t)
  | fuel + 1, items, t =>
    match skip o t with
    | '-' :: t => leadingDashes o fuel (.single '-' :: items) t
    | t => (items, t)

/-- Opens a class after its bracket: a caret negates it, and dashes or else a bracket that follow are
literals. -/
def openClass (o : Options) (t : Text) : ClassLevel × Text :=
  let (negated, t) := match skip o t with
    | '^' :: t => (true, t)
    | t => (false, t)
  let (items, t) := leadingDashes o t.length [] t
  match items, t with
  | [], ']' :: t => (⟨negated, none, [.single ']']⟩, t)
  | items, t => (⟨negated, none, items⟩, t)

/-- Reads one character or escape of a class. -/
def classItem? (o : Options) : Text → Option (Escape × Text)
  | [] => none
  | '\\' :: t => escape? o t
  | c :: t => some (.literal c, t)

/-- The set of a single item of a class. -/
def Escape.set? : Escape → Option CharSet
  | .literal c => some (.single c)
  | .class s => some s
  | .look _ => none

/-- Reads an item of a class or a range between two literals. -/
def classRange? (o : Options) (t : Text) : Option (CharSet × Text) := do
  let (first, t) ← classItem? o t
  match skip o t with
  | [] => none
  | '-' :: u =>
    match skip o u with
    | ']' :: _ => return (← first.set?, '-' :: u)
    | '-' :: _ => return (← first.set?, '-' :: u)
    | u =>
      let (second, u) ← classItem? o u
      match first, second with
      | .literal low, .literal high =>
        if low ≤ high then return (.between low high, u) else none
      | _, _ => none
  | t => return (← first.set?, t)

/-- Reads the rest of a class in at most `fuel` steps, with the classes around it in `outer`. -/
def classRest? (o : Options) : Nat → ClassLevel → List ClassLevel → Text → Option (CharSet × Text)
  | 0, _, _, _ => none
  | fuel + 1, level, outer, t =>
    match skip o t with
    | [] => none
    | '[' :: t =>
      match namedClass? o t with
      | some (s, t) => classRest? o fuel (level.push s) outer t
      | none =>
        let (inner, t) := openClass o t
        classRest? o fuel inner (level :: outer) t
    | ']' :: t => do
      let s ← level.finish? o
      match outer with
      | [] => return (s, t)
      | level :: outer => classRest? o fuel (level.push s) outer t
    | '&' :: '&' :: t => classRest? o fuel (level.operate o .inter) outer t
    | '-' :: '-' :: t => classRest? o fuel (level.operate o .diff) outer t
    | '~' :: '~' :: t => classRest? o fuel (level.operate o .symDiff) outer t
    | t => do
      let (s, t) ← classRange? o t
      classRest? o fuel (level.push s) outer t

/-- Reads a class after its opening bracket. -/
def class? (o : Options) (t : Text) : Option (CharSet × Text) :=
  let (level, rest) := openClass o t
  classRest? o (t.length + 1) level [] rest

/-! ### Groups -/

/-- Reads option letters up to a colon or parenthesis: the options, whether any letter was read, and
the rest from that mark on. -/
def options? (o : Options) (negate : Bool) (used : List Char) :
    Text → Option (Options × Bool × Text)
  | [] => none
  | c :: t =>
    if c = ':' ∨ c = ')' then
      if used.head? = some '-' then none else some (o, !used.isEmpty, c :: t)
    else if used.contains c then none
    else if c = '-' then options? o true (c :: used) t
    else do
      let o ← o.set? c (!negate)
      options? o negate (c :: used) t

/-- Reads the name of a group up to its closing angle bracket. -/
def groupName? (t : Text) : Option (String × Text) := do
  let (name, rest) ← Text.cut? ['>'] t
  match name with
  | [] => none
  | c :: cs =>
    let first := c == '_' || (isWord c && !isDecimalDigit c)
    let others := cs.all fun c => isWord c || c == '.' || c == '[' || c == ']'
    if first && others then some (String.ofList name, rest) else none

/-- An open group: the options to go back to, its finished branches and the items of the current
branch, newest first; `none` among the items marks a change of options. -/
structure Level where
  outside : Options
  branches : List Regex
  items : List (Option Regex)
deriving Repr

namespace Level

/-- The items of the current branch as one expression. -/
def branch (l : Level) : Regex := seqs (l.items.reverse.filterMap id)

/-- The group as one expression. -/
def regex (l : Level) : Regex := alts (l.branch :: l.branches).reverse

/-- Adds an item to the current branch. -/
def push (l : Level) (r : Regex) : Level := { l with items := some r :: l.items }

/-- Starts another branch. -/
def split (l : Level) : Level := { l with branches := l.branch :: l.branches, items := [] }

/-- Repeats the last item. -/
def repeat? (l : Level) (low : Nat) (high : Option Nat) (greedy : Bool) : Option Level :=
  match l.items with
  | some r :: items => some { l with items := some (r.times low high greedy) :: items }
  | _ => none

end Level

/-- A pattern that is being read. -/
structure State where
  options : Options
  level : Level
  outer : List Level
  /-- The group names in use. -/
  names : List String
deriving Repr

namespace State

/-- Opens a group whose inside has the options `o`. -/
def enter (s : State) (o : Options) : State :=
  { s with options := o, level := ⟨s.options, [], []⟩, outer := s.level :: s.outer }

/-- Adds an item. -/
def push (s : State) (r : Regex) : State := { s with level := s.level.push r }

end State

/-- Groups may be nested this deep. -/
def nestLimit : Nat := 250

/-- Reads the start of a group after its parenthesis. -/
def group? (s : State) (t : Text) : Option (State × Text) :=
  let named (t : Text) : Option (State × Text) := do
    let (name, t) ← groupName? t
    if s.names.contains name then none
    else return ({ s.enter s.options with names := name :: s.names }, t)
  match skip s.options t with
  | '?' :: 'P' :: '<' :: t => named t
  | '?' :: '<' :: '=' :: _ => none
  | '?' :: '<' :: '!' :: _ => none
  | '?' :: '<' :: t => named t
  | '?' :: t =>
    match options? s.options false [] t with
    | some (o, _, ':' :: t) => some (s.enter o, t)
    | some (o, true, ')' :: t) =>
      some ({ s with options := o, level := { s.level with items := none :: s.level.items } }, t)
    | _ => none
  | t => some (s.enter s.options, t)

/-! ### Repetition -/

/-- Whether a repetition is greedy, from the mark that may follow it. -/
def greed (o : Options) (t : Text) : Bool × Text :=
  match t with
  | '?' :: t => (o.swapGreed, t)
  | t => (!o.swapGreed, t)

/-- Reads the bounds of a counted repetition after its brace. -/
def bounds? (t : Text) : Option (Nat × Option Nat × Text) := do
  let (low, t) ← decimal? t
  match t with
  | ',' :: t =>
    match Text.trimStart t with
    | '}' :: t => return (low, none, t)
    | t =>
      let (high, t) ← decimal? t
      match t with
      | '}' :: t => if low ≤ high then return (low, some high, t) else none
      | _ => none
  | '}' :: t => return (low, some low, t)
  | _ => none

/-! ### Patterns -/

/-- What the dot matches. -/
def dot? (o : Options) : Option CharSet :=
  if !o.unicode then none
  else if o.dotAll then some .all
  else if o.crlf then some (.compl (.union (.single '\r') (.single '\n')))
  else some (.compl (.single '\n'))

/-- The condition that `^` stands for. -/
def startLook (o : Options) : Look :=
  if o.multiLine then if o.crlf then .lineStartCr else .lineStart else .textStart

/-- The condition that `$` stands for. -/
def endLook (o : Options) : Look :=
  if o.multiLine then if o.crlf then .lineEndCr else .lineEnd else .textEnd

/-- Adds a literal character. -/
def State.literal (s : State) (c : Char) : State := s.push (.set (s.options.folded (.single c)))

/-- Repeats the last item with given bounds; the text may start with a mark about greed. -/
def repetition? (s : State) (low : Nat) (high : Option Nat) (t : Text) : Option (State × Text) := do
  let (greedy, t) := greed s.options (skip s.options t)
  let level ← s.level.repeat? low high greedy
  return ({ s with level }, t)

/-- Reads one element of a pattern that starts with `c`. -/
def element? (s : State) (c : Char) (t : Text) : Option (State × Text) :=
  match c with
  | '(' => if nestLimit ≤ s.outer.length then none else group? s t
  | ')' =>
    match s.outer with
    | [] => none
    | outer :: rest =>
      some ({ s with
        options := s.level.outside, level := outer.push s.level.regex, outer := rest }, t)
  | '|' => some ({ s with level := s.level.split }, t)
  | '[' => (class? s.options t).map fun (chars, t) => (s.push (.set chars), t)
  | '*' => repetition? s 0 none t
  | '+' => repetition? s 1 none t
  | '?' => repetition? s 0 (some 1) t
  | '{' =>
    match bounds? t with
    | some (low, high, t) => repetition? s low high t
    | none => none
  | '.' => (dot? s.options).map fun chars => (s.push (.set chars), t)
  | '^' => some (s.push (.look (startLook s.options)), t)
  | '$' => some (s.push (.look (endLook s.options)), t)
  | '\\' => do
    let (e, t) ← escape? s.options t
    match e with
    | .literal c => return (s.literal c, t)
    | .class chars => return (s.push (.set chars), t)
    | .look l => return (s.push (.look l), t)
  | c => some (s.literal c, t)

/-- Reads the rest of a pattern in at most `fuel` steps. -/
def patternRest? : Nat → State → Text → Option Regex
  | 0, _, _ => none
  | fuel + 1, s, t =>
    match skip s.options t with
    | [] => if s.outer.isEmpty then some s.level.regex else none
    | c :: t => do
      let (s, t) ← element? s c t
      patternRest? fuel s t

/-- An estimate of the number of states that a pattern stands for when repetition is written out. -/
def states : Regex → Nat
  | .empty => 1
  | .set _ => 1
  | .look _ => 1
  | .seq a b => states a + states b
  | .alt a b => states a + states b + 1
  | .power r n => n * states r
  | .upTo r n _ => n * (states r + 1)
  | .star r _ => states r + 1

/-- Patterns may stand for this many states. -/
def stateLimit : Nat := 300000

/-- Reads a pattern. -/
def parse? (pattern : Text) : Option Regex := do
  let start : State := ⟨{}, ⟨{}, [], []⟩, [], []⟩
  let r ← patternRest? (pattern.length + 1) start pattern
  if stateLimit < states r then none else some r

/-- The engine that reads patterns with `parse?` and matches as `spans` does. -/
instance engine : RegexEngine := ⟨fun pattern => (parse? pattern).map spans⟩

end LiquidLint.Regex
