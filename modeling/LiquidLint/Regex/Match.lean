import LiquidLint.Regex.Basic

/-!
# Matching

A match starts as far left as possible, and of the matches that start there the preferred one counts:
the first branch of an alternative, and for repetition what its greed says. Matching keeps an ordered
list of *threads*, each a character set to pass next and a list of what comes after it. Reading a
character moves all threads on at once, so a text is read only once for each start.
-/

namespace LiquidLint.Regex

/-- Something that is still to be matched. -/
inductive Item where
  | regex (r : Regex)
  /-- A repetition whose current round started at this very place, so that another round would get
  nowhere. -/
  | again (r : Regex) (greedy : Bool)
deriving DecidableEq, Repr

/-- An upper bound for the number of steps that a regular expression can take in one place. -/
def weight : Regex → Nat
  | .empty => 1
  | .set _ => 1
  | .look _ => 1
  | .seq a b => weight a + weight b + 1
  | .alt a b => weight a + weight b + 1
  | .power r n => n * (weight r + 1) + 1
  | .upTo r n _ => n * (weight r + 1) + 1
  | .star r _ => weight r + 2

/-- An upper bound for the number of steps that an item can take in one place. -/
def Item.weight : Item → Nat
  | .regex r => Regex.weight r
  | .again _ _ => 1

/-- An upper bound for the number of steps that items can take in one place. -/
def weights : List Item → Nat
  | [] => 0
  | i :: is => i.weight + weights is

/-- A way to go on from a place. -/
inductive Thread where
  /-- The match is complete. -/
  | done
  /-- A character of `s` comes next, then `rest`. -/
  | pass (s : CharSet) (rest : List Item)
deriving DecidableEq, Repr

/-- The threads that `items` amount to between two neighbouring characters, preferred ones first,
and the item lists met so far. A list met before adds nothing. -/
def threads (before after : Option Char) (items : List Item) (met : List (List Item)) :
    List Thread × List (List Item) :=
  if met.contains items then ([], met)
  else
    let met := items :: met
    match items with
    | [] => ([.done], met)
    | .again _ _ :: k => threads before after k met
    | .regex .empty :: k => threads before after k met
    | .regex (.set s) :: k => ([.pass s k], met)
    | .regex (.look l) :: k => if l.holds before after then threads before after k met else ([], met)
    | .regex (.seq a b) :: k => threads before after (.regex a :: .regex b :: k) met
    | .regex (.alt a b) :: k =>
      let (first, met) := threads before after (.regex a :: k) met
      let (second, met) := threads before after (.regex b :: k) met
      (first ++ second, met)
    | .regex (.power _ 0) :: k => threads before after k met
    | .regex (.power r (n + 1)) :: k =>
      threads before after (.regex r :: .regex (.power r n) :: k) met
    | .regex (.upTo _ 0 _) :: k => threads before after k met
    | .regex (.upTo r (n + 1) greedy) :: k =>
      let more := Item.regex r :: .regex (.upTo r n greedy) :: k
      if greedy then
        let (first, met) := threads before after more met
        let (second, met) := threads before after k met
        (first ++ second, met)
      else
        let (first, met) := threads before after k met
        let (second, met) := threads before after more met
        (first ++ second, met)
    | .regex (.star r greedy) :: k =>
      let more := Item.regex r :: .again r greedy :: k
      if greedy then
        let (first, met) := threads before after more met
        let (second, met) := threads before after k met
        (first ++ second, met)
      else
        let (first, met) := threads before after k met
        let (second, met) := threads before after more met
        (first ++ second, met)
termination_by weights items
decreasing_by
  all_goals simp only [weights, Item.weight, weight, Nat.succ_mul, Nat.zero_mul]
  all_goals omega

/-- The threads of several item lists, preferred ones first. -/
def allThreads (before after : Option Char) :
    List (List Item) → List (List Item) → List Thread
  | [], _ => []
  | items :: rest, met =>
    let (first, met) := threads before after items met
    first ++ allThreads before after rest met

/-- An item once a character has been read: a repetition may start another round. -/
def Item.renewed : Item → Item
  | .again r greedy => .regex (.star r greedy)
  | i => i

/-- What is left to match after a thread has read `c`. -/
def Thread.read (c : Char) : Thread → Option (List Item)
  | .done => none
  | .pass s rest => if s.contains c then some (rest.map Item.renewed) else none

/-- Reads on after `count` characters: the number of characters of the preferred match, where `best`
is that of the best match found so far. -/
def advance (before : Option Char) (left : List (List Item)) (count : Nat) (best : Option Nat)
    (text : Text) : Option Nat :=
  let ts := allThreads before text.head? left []
  let preferred := ts.takeWhile (· != .done)
  let best := if preferred.length < ts.length then some count else best
  match text with
  | [] => best
  | c :: cs =>
    match preferred.filterMap (Thread.read c) with
    | [] => best
    | left => advance (some c) left (count + 1) best cs

/-- The number of characters of the preferred match at the start of a text. -/
def matchLength? (r : Regex) (before : Option Char) (text : Text) : Option Nat :=
  advance before [[.regex r]] 0 none text

/-! ### Searching -/

/-- A place in a text. -/
structure Place where
  /-- The byte offset of the place. -/
  offset : Nat
  /-- The character before the place. -/
  before : Option Char
  rest : Text
deriving Repr

/-- The place `n` characters on. -/
def Place.forward (p : Place) : Nat → Place
  | 0 => p
  | n + 1 =>
    match p.rest with
    | [] => p
    | c :: cs => Place.forward ⟨p.offset + c.utf8Size, some c, cs⟩ n

/-- Finds the first match that starts in `rest`: the places where it starts and ends. -/
def findFrom (r : Regex) (offset : Nat) (before : Option Char) (rest : Text) :
    Option (Place × Place) :=
  let here : Place := ⟨offset, before, rest⟩
  match matchLength? r before rest with
  | some n => some (here, here.forward n)
  | none =>
    match rest with
    | [] => none
    | c :: cs => findFrom r (offset + c.utf8Size) (some c) cs

/-- Finds the first match from a place on. -/
def find (r : Regex) (p : Place) : Option (Place × Place) := findFrom r p.offset p.before p.rest

/-- Finds the first match from a place on that is not an empty match at the offset `last`. -/
def findAfter (r : Regex) (p : Place) (last : Option Nat) : Option (Place × Place) :=
  match r.find p with
  | none => none
  | some (start, stop) =>
    if start.offset = stop.offset ∧ last = some stop.offset then
      match p.rest with
      | [] => none
      | _ :: _ => r.find (p.forward 1)
    else some (start, stop)

/-- The spans of at most `fuel` successive matches. -/
def spansFrom (r : Regex) : Nat → Place → Option Nat → List Span
  | 0, _, _ => []
  | fuel + 1, p, last =>
    match r.findAfter p last with
    | none => []
    | some (start, stop) =>
      ⟨start.offset, stop.offset⟩ :: spansFrom r fuel stop (some stop.offset)

/-- The spans of all matches in a text, from left to right and without overlap. -/
def spans (r : Regex) (text : Text) : List Span :=
  spansFrom r (text.length + 2) ⟨0, none, text⟩ none

end LiquidLint.Regex
