import LiquidLint.Json.Parse
import LiquidLint.Json.Print
import Mathlib.Data.List.TakeWhile
import Mathlib.Data.Nat.Digits.Defs

/-!
# Reading what was written

A value with natural numbers of 64 bits and no other ones, and not nested too deeply, is read back
from what is written of it, but for the order of members: `JsonValue.parse_pretty`. What follows a
value in a written text is a comma, the end of a line or nothing (`Follows`), so no number runs on.
-/

namespace LiquidLint.JsonValue

/-! ### Values as they are read -/

mutual

/-- A value with the members of its objects sorted by key, the last one of each key. -/
def normal : JsonValue → JsonValue
  | .null => .null
  | .bool b => .bool b
  | .integer n => .integer n
  | .real written => .real written
  | .string s => .string s
  | .array vs => .array (normalElements vs)
  | .object ms => .object (normalMembers [] ms)

/-- The elements of a list as they are read. -/
def normalElements : List JsonValue → List JsonValue
  | [] => []
  | v :: vs => v.normal :: normalElements vs

/-- The members of an object as they are read after others. -/
def normalMembers (read : List (String × JsonValue)) :
    List (String × JsonValue) → List (String × JsonValue)
  | [] => read
  | (k, v) :: ms => normalMembers (insert k v.normal read) ms

end

/-- A value with at most `depth` lists and objects inside each other, in which all numbers are natural
numbers of 64 bits and no object has two members with one key. -/
inductive Plain : Nat → JsonValue → Prop
  | null {depth : Nat} : Plain depth .null
  | bool {depth : Nat} (b : Bool) : Plain depth (.bool b)
  | integer {depth n : Nat} (hn : n < Nat.pow 2 64) : Plain depth (.integer n)
  | string {depth : Nat} (s : String) : Plain depth (.string s)
  | array {depth : Nat} {vs : List JsonValue} (hvs : ∀ v ∈ vs, Plain depth v) :
      Plain (depth + 1) (.array vs)
  | object {depth : Nat} {ms : List (String × JsonValue)} (hkeys : (ms.map (·.1)).Nodup)
      (hms : ∀ m ∈ ms, Plain depth m.2) : Plain (depth + 1) (.object ms)

/-! ### Places -/

/-- White space between tokens. -/
def Blank (t : Text) : Prop := ∀ x ∈ t, Cursor.isSpace x = true

/-- What may follow a value. -/
def Follows (t : Text) : Prop := ∀ x ∈ t.head?, x = ',' ∨ x = '\n'

theorem blank_space : Blank [' '] := by
  intro x hx
  obtain rfl : x = ' ' := List.mem_singleton.1 hx
  rfl

theorem blank_indent (level : Nat) : Blank (indent level).toList := by
  intro x hx
  rw [indent, String.toList_append, List.mem_append] at hx
  rcases hx with hx | hx
  · obtain rfl : x = '\n' := List.mem_singleton.1 hx
    rfl
  · rw [String.toList_ofList] at hx
    obtain rfl : x = ' ' := List.eq_of_mem_replicate hx
    rfl

theorem follows_indent (level : Nat) (t : Text) : Follows ((indent level).toList ++ t) := by
  intro x hx
  rw [indent, String.toList_append] at hx
  exact .inr (Option.some.inj hx).symm

namespace Cursor

variable {x : Char} {t ws : Text} {n : Nat}

theorem skipSpace_cons (hx : isSpace x = false) : skipSpace ⟨x :: t, n⟩ = ⟨x :: t, n⟩ := by
  simp [skipSpace, hx]

/-- White space is skipped up to the next token. -/
theorem exists_skipSpace (hws : Blank ws) (hx : isSpace x = false) :
    ∃ o, skipSpace ⟨ws ++ x :: t, n⟩ = ⟨x :: t, o⟩ := by
  refine ⟨n + ws.length, ?_⟩
  have htake : (ws ++ x :: t).takeWhile isSpace = ws := by
    rw [List.takeWhile_append_of_pos hws, List.takeWhile_cons_of_neg (by simp [hx]), List.append_nil]
  have hdrop : (ws ++ x :: t).dropWhile isSpace = x :: t := by
    rw [List.dropWhile_append_of_pos hws, List.dropWhile_cons_of_neg (by simp [hx])]
  rw [skipSpace, htake, hdrop]

end Cursor

/-! ### Strings -/

/-- A hexadecimal digit is read as what it was written for. -/
theorem hexDigit?_digitChar {n : Nat} (hn : n < 16) : hexDigit? (Nat.digitChar n) = some n := by
  revert n
  decide

/-- A control character is read back from its code. -/
theorem exists_unicodeEscape {c : Char} (hc : c.toNat < 0x20) (t : Text) (n : Nat) :
    ∃ o, unicodeEscape ⟨'0' :: '0' :: (hexPair c.toNat ++ t), n⟩ = .ok (c, ⟨t, o⟩) := by
  -- there are four digits to read
  have hsize : ¬ Text.size ('0' :: '0' :: (hexPair c.toNat ++ t)) < 4 := by
    have h1 := Char.utf8Size_pos (Nat.digitChar (c.toNat / 16))
    have h2 := Char.utf8Size_pos (Nat.digitChar (c.toNat % 16))
    show ¬ 1 + (1 + (_ + (_ + Text.size t))) < 4
    omega
  have hcode : ((0 * 16 + 0) * 16 + c.toNat / 16) * 16 + c.toNat % 16 = c.toNat := by omega
  have hhex : hexEscape ⟨'0' :: '0' :: (hexPair c.toNat ++ t), n⟩ = .ok (c.toNat, ⟨t, n + 4⟩) := by
    rw [hexEscape, if_neg hsize]
    simp only [hexPair, List.cons_append, List.nil_append,
      hexDigit?_digitChar (show c.toNat / 16 < 16 by omega),
      hexDigit?_digitChar (show c.toNat % 16 < 16 by omega), show hexDigit? '0' = some 0 from rfl,
      hcode]
  refine ⟨n + 4, ?_⟩
  -- and what they say is a control character, not half of a surrogate pair
  have htrailing : isTrailing c.toNat = false := by
    rw [isTrailing, Bool.and_eq_false_iff]
    left
    exact decide_eq_false (by omega)
  have hleading : isLeading c.toNat = false := by
    rw [isLeading, Bool.and_eq_false_iff]
    left
    exact decide_eq_false (by omega)
  rw [unicodeEscape, hhex]
  show (if isTrailing c.toNat then _ else if !isLeading c.toNat then _ else _) = _
  rw [htrailing, hleading]
  show Except.ok (Char.ofNat c.toNat, _) = _
  rw [Char.ofNat_toNat]

/-- **A character of a string** is read back. -/
theorem exists_stringRest_escaped (fuel : Nat) (read : Text) (c : Char) (t : Text) (n : Nat) :
    ∃ o, stringRest (fuel + 1) read ⟨escaped c ++ t, n⟩ = stringRest fuel (c :: read) ⟨t, o⟩ := by
  unfold escaped
  split
  iterate 7 exact ⟨n + 2, rfl⟩
  next _ hquote hbackslash _ _ _ _ _ =>
    split
    · next hc =>
      obtain ⟨o, ho⟩ := exists_unicodeEscape hc t (n + 2)
      refine ⟨o, ?_⟩
      show (match unicodeEscape ⟨'0' :: '0' :: (hexPair c.toNat ++ t), n + 2⟩ with
        | .ok (x, c) => stringRest fuel (x :: read) c
        | .error e => .error e) = _
      rw [ho]
    · next hc =>
      refine ⟨n + c.utf8Size, ?_⟩
      rw [List.singleton_append, stringRest]
      split
      · next h => cases h
      · next h => exact absurd (List.cons.inj h).1 hquote
      · next h => exact absurd (List.cons.inj h).1 hbackslash
      · next h =>
        rw [← (List.cons.inj h).1, if_neg hc]
        rfl

/-- The characters of a string are read back in order. -/
theorem exists_stringRest (fuel : Nat) {s : Text} (hfuel : s.length < fuel) (read t : Text) (n : Nat) :
    ∃ o, stringRest fuel read ⟨s.flatMap escaped ++ '"' :: t, n⟩ =
      .ok (String.ofList (read.reverse ++ s), ⟨t, o⟩) := by
  obtain ⟨fuel, rfl⟩ : ∃ k, fuel = k + 1 := ⟨fuel - 1, by omega⟩
  induction s generalizing fuel read n with
  | nil =>
    refine ⟨n + 1, ?_⟩
    rw [List.append_nil]
    rfl
  | cons c s ih =>
    rw [List.length_cons] at hfuel
    obtain ⟨fuel, rfl⟩ : ∃ k, fuel = k + 1 := ⟨fuel - 1, by omega⟩
    obtain ⟨o, ho⟩ := exists_stringRest_escaped (fuel + 1) read c (s.flatMap escaped ++ '"' :: t) n
    obtain ⟨o', ho'⟩ := ih (c :: read) o fuel (by omega)
    refine ⟨o', ?_⟩
    rw [List.flatMap_cons, List.append_assoc, ho, ho', List.reverse_cons, List.append_assoc]
    rfl

theorem escaped_ne_nil (c : Char) : escaped c ≠ [] := by
  unfold escaped
  split
  iterate 7 exact List.cons_ne_nil _ _
  next => split <;> exact List.cons_ne_nil _ _

theorem length_le_flatMap_escaped (s : Text) : s.length ≤ (s.flatMap escaped).length := by
  induction s with
  | nil => exact Nat.le_refl 0
  | cons c s ih =>
    have hc := List.length_pos_iff.2 (escaped_ne_nil c)
    rw [List.flatMap_cons, List.length_append, List.length_cons]
    omega

theorem toList_quote (s : String) : (quote s).toList = '"' :: (s.toList.flatMap escaped ++ ['"']) := by
  rw [quote, String.toList_ofList]

/-- **A string** is read back. -/
theorem exists_quoted (s : String) (t : Text) (n : Nat) :
    ∃ o, quoted (Cursor.next ⟨(quote s).toList ++ t, n⟩) = .ok (s, ⟨t, o⟩) := by
  have hlength := length_le_flatMap_escaped s.toList
  have hfuel : s.toList.length < (s.toList.flatMap escaped ++ '"' :: t).length + 1 := by
    rw [List.length_append]
    omega
  obtain ⟨o, ho⟩ := exists_stringRest _ hfuel [] t (n + 1)
  refine ⟨o, ?_⟩
  rw [toList_quote, List.cons_append, List.append_assoc]
  show stringRest _ [] ⟨s.toList.flatMap escaped ++ '"' :: t, n + 1⟩ = _
  refine ho.trans ?_
  rw [List.reverse_nil, List.nil_append, String.ofList_toList]

/-! ### Numbers -/

/-- Digits that spell a number within the limit are all taken. -/
theorem appendDigits_eq {limit n : Nat} {ds : List Char} (h : Nat.ofDigitChars 10 ds n ≤ limit) :
    appendDigits limit n (ds.map digit) = (Nat.ofDigitChars 10 ds n, []) := by
  induction ds generalizing n with
  | nil => rfl
  | cons d ds ih =>
    have hstep : 10 * n + (d.toNat - '0'.toNat) = n * 10 + digit d := by
      rw [digit, Nat.mul_comm]
    rw [Nat.ofDigitChars_cons, hstep] at h ⊢
    have hle : n * 10 + digit d ≤ Nat.ofDigitChars 10 ds (n * 10 + digit d) := by
      rw [Nat.ofDigitChars_eq_ofDigitChars_zero]
      exact Nat.le_add_right_of_le (Nat.le_mul_of_pos_left _ (Nat.pow_pos (by omega)))
    rw [List.map_cons, appendDigits, if_neg (by omega), ih h]

/-- A number other than zero is not written with a zero in front. -/
theorem head?_toDigits {n : Nat} (hn : 0 < n) : (Nat.toDigits 10 n).head? ≠ some '0' := by
  induction n using Nat.strong_induction_on with
  | _ n ih =>
    rcases Nat.lt_or_ge n 10 with h | h
    · rw [Nat.toDigits_of_lt_base h]
      have hdigit : ∀ m < 10, 0 < m → Nat.digitChar m ≠ '0' := by decide
      exact fun h0 => hdigit n h hn (Option.some.inj h0)
    · rw [Nat.toDigits_of_base_le (by omega) h, List.head?_append,
        List.head?_eq_some_head Nat.toDigits_ne_nil, Option.some_or, ← List.head?_eq_some_head]
      exact ih (n / 10) (by omega) (by omega)

/-- The digits of a number end where it ends. -/
theorem digits_toDigits (n : Nat) {t : Text} (ht : Follows t) (k : Nat) :
    ∃ o, digits ⟨Nat.toDigits 10 n ++ t, k⟩ = ((Nat.toDigits 10 n).map digit, ⟨t, o⟩) := by
  have hdigits : ∀ c ∈ Nat.toDigits 10 n, c.isDigit = true := fun c hc =>
    Nat.isDigit_of_mem_toDigits (by omega) (by omega) hc
  have hstop : t.takeWhile Char.isDigit = [] ∧ t.dropWhile Char.isDigit = t := by
    cases t with
    | nil => exact ⟨rfl, rfl⟩
    | cons x t => rcases ht x rfl with rfl | rfl <;> exact ⟨rfl, rfl⟩
  refine ⟨k + (Nat.toDigits 10 n).length, ?_⟩
  rw [digits, List.takeWhile_append_of_pos hdigits, List.dropWhile_append_of_pos hdigits, hstop.1,
    hstop.2, List.append_nil]

/-- No digit follows a number. -/
theorem Follows.not_isDigit {t : Text} (ht : Follows t) :
    (t.head?.map Char.isDigit).getD false = false := by
  cases t with
  | nil => rfl
  | cons x t => rcases ht x rfl with rfl | rfl <;> rfl

/-- **A number** is read back. -/
theorem exists_number {n : Nat} (hn : n < Nat.pow 2 64) {t : Text} (ht : Follows t) (start : Cursor)
    (k : Nat) :
    ∃ o, number start false ⟨Nat.toDigits 10 n ++ t, k⟩ = .ok (.integer n, ⟨t, o⟩) := by
  obtain ⟨o, hdigits⟩ := digits_toDigits n ht k
  -- the digits fit into the significand, so none is left over
  have hvalue : appendDigits maxSignificand 0 ((Nat.toDigits 10 n).map digit) = (n, []) := by
    have hn' : Nat.ofDigitChars 10 (Nat.toDigits 10 n) 0 = n := Nat.ofDigitChars_ten_toDigits
    rw [appendDigits_eq (by rw [hn', maxSignificand]; omega), hn']
  obtain ⟨d, ds, hds⟩ := List.exists_cons_of_ne_nil (Nat.toDigits_ne_nil (n := n) (b := 10))
  have hd : d.isDigit = true :=
    Nat.isDigit_of_mem_toDigits (b := 10) (n := n) (by omega) (by omega) (by simp [hds])
  -- no zero comes before another digit
  have hzero : (d == '0' && ((ds ++ t).head?.map Char.isDigit).getD false) = false := by
    rcases Nat.eq_zero_or_pos n with rfl | hpos
    · obtain ⟨-, rfl⟩ : '0' = d ∧ [] = ds := by simpa [Nat.toDigits_zero] using hds
      rw [List.nil_append, ht.not_isDigit, Bool.and_false]
    · have hne : d ≠ '0' := by
        rintro rfl
        exact head?_toDigits hpos (by rw [hds]; rfl)
      rw [beq_false_of_ne hne, Bool.false_and]
  refine ⟨o, ?_⟩
  rw [number]
  simp only [hdigits, hvalue]
  rw [hds, List.cons_append]
  simp only [hd, hzero]
  cases t with
  | nil => rfl
  | cons x t => rcases ht x rfl with rfl | rfl <;> rfl

/-! ### Values -/

/-- A value is read back from what is written of it on a level. -/
def IsRead (depth level : Nat) (v : JsonValue) : Prop :=
  ∀ (t : Text) (n : Nat), Follows t →
    ∃ o, value depth ⟨(prettyAt level v).toList ++ t, n⟩ = .ok (v.normal, ⟨t, o⟩)

/-- A text starts with a token that does not close a list. -/
def Opens (t : Text) : Prop := ∃ x s, t = x :: s ∧ Cursor.isSpace x = false ∧ x ≠ ']'

theorem Opens.append {s : Text} (h : Opens s) (t : Text) : Opens (s ++ t) := by
  obtain ⟨x, s, rfl, hspace, hx⟩ := h
  exact ⟨x, s ++ t, rfl, hspace, hx⟩

theorem opens_of_isDigit {x : Char} {t : Text} (hx : x.isDigit = true) : Opens (x :: t) := by
  refine ⟨x, t, rfl, ?_, ?_⟩
  · rw [Bool.eq_false_iff]
    intro hspace
    simp only [Cursor.isSpace, Bool.or_eq_true, beq_iff_eq] at hspace
    rcases hspace with ((rfl | rfl) | rfl) | rfl <;> cases hx
  · rintro rfl
    cases hx

section Dispatch

variable (depth : Nat) (t : Text) (n : Nat)

/-- White space before a value is skipped. -/
theorem exists_value_of_blank {ws t : Text} (hws : Blank ws) (ht : Opens t) :
    ∃ o, value depth ⟨ws ++ t, n⟩ = value depth ⟨t, o⟩ := by
  obtain ⟨x, s, rfl, hspace, -⟩ := ht
  obtain ⟨o, ho⟩ := Cursor.exists_skipSpace (t := s) (n := n) hws hspace
  refine ⟨o, ?_⟩
  rw [value.eq_def, ho, value.eq_def depth ⟨x :: s, o⟩, Cursor.skipSpace_cons hspace]

theorem value_quote :
    value depth ⟨'"' :: t, n⟩ =
      (quoted (Cursor.next ⟨'"' :: t, n⟩)).map fun (s, c) => (.string s, c) := by
  rw [value.eq_def, Cursor.skipSpace_cons rfl]
  rfl

theorem value_bracket :
    value (depth + 2) ⟨'[' :: t, n⟩ =
      elements (value (depth + 1)) (t.length + 2) [] ⟨t, n + 1⟩ := by
  rw [value.eq_def, Cursor.skipSpace_cons rfl]
  rfl

theorem value_brace :
    value (depth + 2) ⟨'{' :: t, n⟩ =
      members (value (depth + 1)) (t.length + 2) true [] ⟨t, n + 1⟩ := by
  rw [value.eq_def, Cursor.skipSpace_cons rfl]
  rfl

theorem value_digit {x : Char} (hx : x.isDigit = true) :
    value depth ⟨x :: t, n⟩ = number ⟨x :: t, n⟩ false ⟨x :: t, n⟩ := by
  obtain ⟨_, _, heq, hspace, -⟩ := opens_of_isDigit (t := t) hx
  rw [← (List.cons.inj heq).1] at hspace
  rw [value.eq_def, Cursor.skipSpace_cons hspace]
  -- how deep lists may be nested makes no difference here
  split
  all_goals
    dsimp only
    split
    · next h => cases h
    iterate 7
      next h =>
        obtain ⟨rfl, -⟩ := List.cons.inj h
        cases hx
    · next h => rw [← (List.cons.inj h).1, hx, if_pos rfl]

end Dispatch

/-- What is written of a value starts with a token of its own. -/
theorem Plain.opens_prettyAt {depth : Nat} {v : JsonValue} (h : v.Plain depth) (level : Nat) :
    Opens (prettyAt level v).toList := by
  -- a value is known by its first character
  cases h with
  | null =>
    rw [prettyAt]
    exact ⟨'n', "ull".toList, rfl, rfl, by decide⟩
  | bool b =>
    rw [prettyAt]
    cases b
    · exact ⟨'f', "alse".toList, rfl, rfl, by decide⟩
    · exact ⟨'t', "rue".toList, rfl, rfl, by decide⟩
  | @integer _ n hn =>
    rw [prettyAt]
    show Opens n.repr.toList
    rw [Nat.toList_repr]
    obtain ⟨d, ds, hds⟩ := List.exists_cons_of_ne_nil (Nat.toDigits_ne_nil (n := n) (b := 10))
    have hd : d ∈ Nat.toDigits 10 n := hds ▸ List.mem_cons_self
    rw [hds]
    exact opens_of_isDigit (Nat.isDigit_of_mem_toDigits (by omega) (by omega) hd)
  | string s =>
    rw [prettyAt, toList_quote]
    exact ⟨'"', _, rfl, rfl, by decide⟩
  | @array _ vs hvs =>
    cases vs with
    | nil =>
      rw [prettyAt]
      exact ⟨'[', [']'], rfl, rfl, by decide⟩
    | cons v vs =>
      simp only [prettyAt, String.toList_append, List.append_assoc]
      exact ⟨'[', _, rfl, rfl, by decide⟩
  | @object _ ms hkeys hms =>
    cases ms with
    | nil =>
      rw [prettyAt]
      exact ⟨'{', ['}'], rfl, rfl, by decide⟩
    | cons m ms =>
      simp only [prettyAt, String.toList_append, List.append_assoc]
      exact ⟨'{', _, rfl, rfl, by decide⟩

section Steps

variable (element : Cursor → Read JsonValue) (fuel : Nat) {ws t : Text}

/-- The first element of a list is read. -/
theorem exists_elements_first (hws : Blank ws) (ht : Opens t) (n : Nat) :
    ∃ o, elements element (fuel + 1) [] ⟨ws ++ t, n⟩ =
      match element ⟨t, o⟩ with
      | .ok (v, c) => elements element fuel [v] c
      | .error e => .error e := by
  obtain ⟨x, s, rfl, hspace, hx⟩ := ht
  obtain ⟨o, ho⟩ := Cursor.exists_skipSpace (t := s) (n := n) hws hspace
  refine ⟨o, ?_⟩
  rw [elements, ho]
  split
  · next h => cases h
  · next h => exact absurd (List.cons.inj h).1 hx
  · rfl

/-- Another element of a list is read. -/
theorem exists_elements_next {read : List JsonValue} (hread : read.isEmpty = false) (hws : Blank ws)
    (ht : Opens t) (n : Nat) :
    ∃ o, elements element (fuel + 1) read ⟨',' :: (ws ++ t), n⟩ =
      match element ⟨t, o⟩ with
      | .ok (v, c) => elements element fuel (v :: read) c
      | .error e => .error e := by
  obtain ⟨x, s, rfl, hspace, hx⟩ := ht
  obtain ⟨o, ho⟩ := Cursor.exists_skipSpace (t := s) (n := n + 1) hws hspace
  refine ⟨o, ?_⟩
  have hnext : (Cursor.next ⟨',' :: (ws ++ x :: s), n⟩).skipSpace = ⟨x :: s, o⟩ := ho
  rw [elements, Cursor.skipSpace_cons rfl]
  simp only [hnext, hread]
  -- a comma stands ahead, and it is not the first element that is read
  refine (if_neg Bool.false_ne_true).trans ((if_pos rfl).trans ?_)
  split
  · next h => cases h
  · next h => exact absurd (List.cons.inj h).1 hx
  · rfl

/-- A member of an object is read, whose key and value stand at the quote ahead. -/
theorem exists_member (k : String) (n : Nat) :
    ∃ o, member element ⟨(quote k).toList ++ (':' :: ' ' :: t), n⟩ =
      match element ⟨' ' :: t, o⟩ with
      | .ok (v, c) => .ok ((k, v), c)
      | .error e => .error e := by
  obtain ⟨o, ho⟩ := exists_quoted k (':' :: ' ' :: t) n
  refine ⟨o + 1, ?_⟩
  rw [member, ho]
  show ((element ⟨' ' :: t, o + 1⟩).bind fun p => .ok ((k, p.1), p.2)) = _
  cases element ⟨' ' :: t, o + 1⟩ <;> rfl

/-- The first member of an object is read. -/
theorem exists_members_first (hws : Blank ws) (k : String) (n : Nat) :
    ∃ o, members element (fuel + 1) true [] ⟨ws ++ ((quote k).toList ++ (':' :: ' ' :: t)), n⟩ =
      match element ⟨' ' :: t, o⟩ with
      | .ok (v, c) => members element fuel false [(k, v)] c
      | .error e => .error e := by
  obtain ⟨o, ho⟩ : ∃ o, Cursor.skipSpace ⟨ws ++ ((quote k).toList ++ (':' :: ' ' :: t)), n⟩ =
      ⟨(quote k).toList ++ (':' :: ' ' :: t), o⟩ := by
    rw [toList_quote]
    exact Cursor.exists_skipSpace hws rfl
  obtain ⟨o', ho'⟩ := exists_member (t := t) element k o
  refine ⟨o', ?_⟩
  rw [members]
  simp only [ho, ho']
  rw [toList_quote]
  cases element ⟨' ' :: t, o'⟩ <;> rfl

/-- Another member of an object is read. -/
theorem exists_members_next (read : List (String × JsonValue)) (hws : Blank ws) (k : String)
    (n : Nat) :
    ∃ o, members element (fuel + 1) false read
        ⟨',' :: (ws ++ ((quote k).toList ++ (':' :: ' ' :: t))), n⟩ =
      match element ⟨' ' :: t, o⟩ with
      | .ok (v, c) => members element fuel false (insert k v read) c
      | .error e => .error e := by
  obtain ⟨o, ho⟩ : ∃ o,
      (Cursor.next ⟨',' :: (ws ++ ((quote k).toList ++ (':' :: ' ' :: t))), n⟩).skipSpace =
        ⟨(quote k).toList ++ (':' :: ' ' :: t), o⟩ := by
    rw [toList_quote]
    exact Cursor.exists_skipSpace hws rfl
  obtain ⟨o', ho'⟩ := exists_member (t := t) element k o
  refine ⟨o', ?_⟩
  rw [members, Cursor.skipSpace_cons rfl]
  simp only [ho, ho']
  rw [toList_quote]
  cases element ⟨' ' :: t, o'⟩ <;> rfl

end Steps

/-- What follows an element of a list. -/
theorem follows_prettyElements (level : Nat) (vs : List JsonValue) {t : Text} (ht : Follows t) :
    Follows ((prettyElements level vs).toList ++ t) := by
  cases vs with
  | nil => simpa [prettyElements] using ht
  | cons v vs =>
    simp only [prettyElements, String.toList_append, List.append_assoc]
    exact fun x hx => .inl (Option.some.inj hx).symm

/-- What follows a member of an object. -/
theorem follows_prettyMembers (level : Nat) (ms : List (String × JsonValue)) {t : Text}
    (ht : Follows t) : Follows ((prettyMembers level ms).toList ++ t) := by
  cases ms with
  | nil => simpa [prettyMembers] using ht
  | cons m ms =>
    simp only [prettyMembers, String.toList_append, List.append_assoc]
    exact fun x hx => .inl (Option.some.inj hx).symm

/-- **The elements of a list** after the first are read back. -/
theorem exists_elements {depth level : Nat} {vs : List JsonValue} {fuel : Nat}
    (hvs : ∀ v ∈ vs, Opens (prettyAt level v).toList ∧ IsRead depth level v)
    (hfuel : vs.length < fuel) (read : List JsonValue) (hread : read.isEmpty = false) (outer : Nat)
    (t : Text) (n : Nat) :
    ∃ o, elements (value depth) fuel read
        ⟨(prettyElements level vs).toList ++ ((indent outer).toList ++ ']' :: t), n⟩ =
      .ok (.array (read.reverse ++ normalElements vs), ⟨t, o⟩) := by
  -- the fuel is for the elements and the closing bracket
  obtain ⟨fuel, rfl⟩ : ∃ k, fuel = k + 1 := ⟨fuel - 1, by omega⟩
  induction vs generalizing fuel read n with
  | nil =>
    obtain ⟨o, ho⟩ := Cursor.exists_skipSpace (x := ']') (t := t) (n := n) (blank_indent outer) rfl
    refine ⟨o + 1, ?_⟩
    rw [prettyElements]
    show elements (value depth) (fuel + 1) read ⟨(indent outer).toList ++ ']' :: t, n⟩ = _
    rw [elements, ho, normalElements, List.append_nil]
    rfl
  | cons v vs ih =>
    obtain ⟨hopens, hv⟩ := hvs v (List.mem_cons_self ..)
    rw [List.length_cons] at hfuel
    obtain ⟨fuel, rfl⟩ : ∃ k, fuel = k + 1 := ⟨fuel - 1, by omega⟩
    let rest := (prettyElements level vs).toList ++ ((indent outer).toList ++ ']' :: t)
    have hrest : Follows rest := follows_prettyElements level vs (follows_indent outer _)
    -- the comma and the gap behind it are skipped, then comes the element, then the others
    obtain ⟨o, hnext⟩ := exists_elements_next (value depth) (fuel + 1) hread (blank_indent level)
      (hopens.append rest) n
    obtain ⟨o, hvalue⟩ := hv rest o hrest
    obtain ⟨o, hvs⟩ := ih (fun v hv => hvs v (List.mem_cons_of_mem _ hv)) (v.normal :: read) rfl o
      fuel (by omega)
    refine ⟨o, ?_⟩
    simp only [prettyElements, String.toList_append, List.append_assoc]
    refine hnext.trans ?_
    rw [hvalue]
    refine hvs.trans ?_
    rw [List.reverse_cons, List.append_assoc, normalElements]
    rfl

/-- **The members of an object** after the first are read back. -/
theorem exists_members {depth level : Nat} {ms : List (String × JsonValue)} {fuel : Nat}
    (hms : ∀ m ∈ ms, Opens (prettyAt level m.2).toList ∧ IsRead depth level m.2)
    (hfuel : ms.length < fuel) (read : List (String × JsonValue)) (outer : Nat) (t : Text) (n : Nat) :
    ∃ o, members (value depth) fuel false read
        ⟨(prettyMembers level ms).toList ++ ((indent outer).toList ++ '}' :: t), n⟩ =
      .ok (.object (normalMembers read ms), ⟨t, o⟩) := by
  obtain ⟨fuel, rfl⟩ : ∃ k, fuel = k + 1 := ⟨fuel - 1, by omega⟩
  induction ms generalizing fuel read n with
  | nil =>
    obtain ⟨o, ho⟩ := Cursor.exists_skipSpace (x := '}') (t := t) (n := n) (blank_indent outer) rfl
    refine ⟨o + 1, ?_⟩
    rw [prettyMembers]
    show members (value depth) (fuel + 1) false read ⟨(indent outer).toList ++ '}' :: t, n⟩ = _
    rw [members, ho, normalMembers]
    rfl
  | cons m ms ih =>
    obtain ⟨k, v⟩ := m
    obtain ⟨hopens, hv⟩ := hms (k, v) (List.mem_cons_self ..)
    rw [List.length_cons] at hfuel
    obtain ⟨fuel, rfl⟩ : ∃ k, fuel = k + 1 := ⟨fuel - 1, by omega⟩
    let rest := (prettyMembers level ms).toList ++ ((indent outer).toList ++ '}' :: t)
    have hrest : Follows rest := follows_prettyMembers level ms (follows_indent outer _)
    obtain ⟨o, hnext⟩ := exists_members_next (t := (prettyAt level v).toList ++ rest) (value depth)
      (fuel + 1) read (blank_indent level) k n
    obtain ⟨o, hblank⟩ := exists_value_of_blank depth o blank_space (hopens.append rest)
    obtain ⟨o, hvalue⟩ := hv rest o hrest
    obtain ⟨o, hms⟩ := ih (fun m hm => hms m (List.mem_cons_of_mem _ hm)) (insert k v.normal read) o
      fuel (by omega)
    refine ⟨o, ?_⟩
    simp only [prettyMembers, String.toList_append, List.append_assoc]
    rw [List.singleton_append] at hblank
    refine hnext.trans ?_
    rw [hblank, hvalue, normalMembers]
    exact hms

theorem length_le_prettyElements (level : Nat) (vs : List JsonValue) :
    vs.length ≤ (prettyElements level vs).toList.length := by
  induction vs with
  | nil => exact Nat.zero_le _
  | cons v vs ih =>
    have hcomma : ",".toList.length = 1 := rfl
    simp only [prettyElements, String.toList_append, List.length_append, List.length_cons, hcomma]
    omega

theorem length_le_prettyMembers (level : Nat) (ms : List (String × JsonValue)) :
    ms.length ≤ (prettyMembers level ms).toList.length := by
  induction ms with
  | nil => exact Nat.zero_le _
  | cons m ms ih =>
    have hcomma : ",".toList.length = 1 := rfl
    simp only [prettyMembers, String.toList_append, List.length_append, List.length_cons, hcomma]
    omega

/-- **A list** is read back when its elements are. -/
theorem isRead_array {depth level : Nat} {vs : List JsonValue}
    (hvs : ∀ v ∈ vs, Opens (prettyAt (level + 1) v).toList ∧ IsRead (depth + 1) (level + 1) v) :
    IsRead (depth + 2) level (.array vs) := by
  intro t n ht
  rw [normal]
  cases vs with
  | nil =>
    refine ⟨n + 2, ?_⟩
    rw [prettyAt, normalElements]
    show value (depth + 2) ⟨'[' :: ']' :: t, n⟩ = _
    rw [value_bracket]
    rfl
  -- the first element comes without a comma, and the others are read as a list of their own
  | cons v vs =>
    obtain ⟨hopens, hv⟩ := hvs v (List.mem_cons_self ..)
    let rest := (prettyElements (level + 1) vs).toList ++ ((indent level).toList ++ ']' :: t)
    have hrest : Follows rest := follows_prettyElements _ vs (follows_indent level _)
    let inner := (indent (level + 1)).toList ++ ((prettyAt (level + 1) v).toList ++ rest)
    have hfuel : vs.length < inner.length + 1 := by
      have hlength := length_le_prettyElements (level + 1) vs
      simp only [inner, rest, List.length_append]
      omega
    obtain ⟨o, hfirst⟩ := exists_elements_first (value (depth + 1)) (inner.length + 1)
      (blank_indent (level + 1)) (hopens.append rest) (n + 1)
    obtain ⟨o, hvalue⟩ := hv rest o hrest
    obtain ⟨o, hnext⟩ := exists_elements (fun v hv => hvs v (List.mem_cons_of_mem _ hv)) hfuel
      [v.normal] rfl level t o
    refine ⟨o, ?_⟩
    have htext : (prettyAt level (.array (v :: vs))).toList ++ t = '[' :: inner := by
      simp only [prettyAt, String.toList_append, List.append_assoc]
      rfl
    rw [htext, value_bracket]
    refine hfirst.trans ?_
    rw [hvalue, normalElements]
    exact hnext

/-- **An object** is read back when the values of its members are. -/
theorem isRead_object {depth level : Nat} {ms : List (String × JsonValue)}
    (hms : ∀ m ∈ ms, Opens (prettyAt (level + 1) m.2).toList ∧ IsRead (depth + 1) (level + 1) m.2) :
    IsRead (depth + 2) level (.object ms) := by
  intro t n ht
  rw [normal]
  cases ms with
  | nil =>
    refine ⟨n + 2, ?_⟩
    rw [prettyAt, normalMembers]
    show value (depth + 2) ⟨'{' :: '}' :: t, n⟩ = _
    rw [value_brace]
    rfl
  -- as in an array, with a name and a colon before each value
  | cons m ms =>
    obtain ⟨k, v⟩ := m
    obtain ⟨hopens, hv⟩ := hms (k, v) (List.mem_cons_self ..)
    let rest := (prettyMembers (level + 1) ms).toList ++ ((indent level).toList ++ '}' :: t)
    have hrest : Follows rest := follows_prettyMembers _ ms (follows_indent level _)
    let inner := (indent (level + 1)).toList ++
      ((quote k).toList ++ (':' :: ' ' :: ((prettyAt (level + 1) v).toList ++ rest)))
    have hfuel : ms.length < inner.length + 1 := by
      have hlength := length_le_prettyMembers (level + 1) ms
      simp only [inner, rest, List.length_append, List.length_cons]
      omega
    obtain ⟨o, hfirst⟩ := exists_members_first (t := (prettyAt (level + 1) v).toList ++ rest)
      (value (depth + 1)) (inner.length + 1) (blank_indent (level + 1)) k (n + 1)
    obtain ⟨o, hblank⟩ := exists_value_of_blank (depth + 1) o blank_space (hopens.append rest)
    obtain ⟨o, hvalue⟩ := hv rest o hrest
    obtain ⟨o, hnext⟩ := exists_members (fun m hm => hms m (List.mem_cons_of_mem _ hm)) hfuel
      [(k, v.normal)] level t o
    refine ⟨o, ?_⟩
    have htext : (prettyAt level (.object ((k, v) :: ms))).toList ++ t = '{' :: inner := by
      simp only [prettyAt, String.toList_append, List.append_assoc]
      rfl
    rw [htext, value_brace]
    refine hfirst.trans ?_
    rw [List.singleton_append] at hblank
    rw [hblank, hvalue, normalMembers]
    exact hnext

/-- **A plain value** is read back when lists and objects may be nested deep enough. -/
theorem Plain.isRead {d depth : Nat} {v : JsonValue} (h : v.Plain d) (hd : d < depth) (level : Nat) :
    IsRead depth level v := by
  -- along the value; each level of nesting takes two steps of the depth
  induction h generalizing depth level with
  | null =>
    intro t n ht
    rw [prettyAt, normal]
    exact ⟨n + 4, by rw [value.eq_def]; rfl⟩
  | bool b =>
    intro t n ht
    rw [prettyAt, normal]
    cases b
    · exact ⟨n + 5, by rw [value.eq_def]; rfl⟩
    · exact ⟨n + 4, by rw [value.eq_def]; rfl⟩
  | @integer _ i hi =>
    intro t n ht
    obtain ⟨d, ds, hds⟩ := List.exists_cons_of_ne_nil (Nat.toDigits_ne_nil (n := i) (b := 10))
    have hd : d.isDigit = true :=
      Nat.isDigit_of_mem_toDigits (b := 10) (n := i) (by omega) (by omega) (by simp [hds])
    obtain ⟨o, ho⟩ := exists_number hi ht ⟨Nat.toDigits 10 i ++ t, n⟩ n
    refine ⟨o, ?_⟩
    rw [prettyAt, normal, ← ho]
    show value depth ⟨i.repr.toList ++ t, n⟩ = _
    rw [Nat.toList_repr, hds, List.cons_append, value_digit _ _ _ hd]
  | string s =>
    intro t n ht
    obtain ⟨o, ho⟩ := exists_quoted s t n
    refine ⟨o, ?_⟩
    rw [prettyAt, normal]
    rw [toList_quote, List.cons_append] at ho ⊢
    rw [value_quote, ho]
    rfl
  | @array d vs hvs ih =>
    obtain ⟨depth, rfl⟩ : ∃ k, depth = k + 2 := ⟨depth - 2, by omega⟩
    exact isRead_array fun v hv => ⟨(hvs v hv).opens_prettyAt _, ih v hv (by omega) _⟩
  | @object d ms hkeys hms ih =>
    obtain ⟨depth, rfl⟩ : ∃ k, depth = k + 2 := ⟨depth - 2, by omega⟩
    exact isRead_object fun m hm => ⟨(hms m hm).opens_prettyAt _, ih m hm (by omega) _⟩

/-- **What is written of a plain value is read back**, with the members of objects sorted by key. -/
theorem parse_pretty {depth : Nat} {v : JsonValue} (h : v.Plain depth) (hdepth : depth < depthLimit) :
    parse v.pretty.toList = .ok v.normal := by
  obtain ⟨o, ho⟩ := h.isRead hdepth 0 [] 0 fun _ hx => nomatch hx
  rw [List.append_nil] at ho
  rw [parse, pretty, ho]
  rfl

end LiquidLint.JsonValue
