import LiquidLint.Liquid.Markup
import LiquidLint.Liquid.Tag

/-!
# Tokens of a template

A template is cut from left to right into text, variables, tags and raw blocks. A variable ends at the first
closing delimiter after its opening one, a tag likewise, and a raw block runs to the first end tag of
its own name. Every token keeps the characters it was cut from (`Token.lexeme`), so the lexemes of
the tokens, followed by what could not be cut, are the template.
-/

namespace LiquidLint.Liquid

/-- A piece of a template. -/
inductive Token where
  /-- Characters outside delimiters. -/
  | text (body : Text)
  /-- An output with the text between its delimiters. -/
  | variable (markup : Text)
  /-- A tag with the text between its delimiters. -/
  | tag (markup : Text)
  /-- A raw tag with its verbatim body and the characters of its end tag. -/
  | rawBlock (name : String) (markup body close : Text)
deriving DecidableEq, Repr

/-- Why the rest of a template cannot be cut into tokens. -/
inductive Fault where
  /-- A variable has no closing delimiter. -/
  | openVariable
  /-- A tag has no closing delimiter. -/
  | openTag
  /-- The raw tag `name` has no end tag. -/
  | openRaw (name : String)
deriving DecidableEq, Repr

namespace Token

/-- The characters of an opening tag with the given markup. -/
def tagLexeme (markup : Text) : Text := '{' :: '%' :: (markup ++ ['%', '}'])

/-- The characters a token was cut from. -/
def lexeme : Token → Text
  | .text body => body
  | .variable markup => '{' :: '{' :: (markup ++ ['}', '}'])
  | .tag markup => tagLexeme markup
  | .rawBlock _ markup body close => tagLexeme markup ++ body ++ close

/-! ### Cutting one token -/

/-- Whether an opening delimiter stands at the start of the text. -/
def opensHere : Text → Bool
  | '{' :: '{' :: _ => true
  | '{' :: '%' :: _ => true
  | _ => false

/-- The characters before the first opening delimiter, and the rest from there on. -/
def cutText : Text → Text × Text
  | [] => ([], [])
  | c :: cs =>
    if opensHere (c :: cs) then ([], c :: cs)
    else
      let (body, rest) := cutText cs
      (c :: body, rest)

/-- Cuts at the first closing delimiter made of `a` and `b`. -/
def cutClose (a b : Char) : Text → Option (Text × Text)
  | [] => none
  | [_] => none
  | x :: y :: rest =>
    if x = a ∧ y = b then some ([], rest)
    else (cutClose a b (y :: rest)).map fun (markup, after) => (x :: markup, after)

/-- The rest after an optional dash. -/
def dropDash : Text → Text
  | '-' :: rest => rest
  | rest => rest

/-- What follows the end tag of the raw tag `name`, when one stands at the start of the text: the
delimiters, an optional dash inside either, blanks, and `end` followed by the name. -/
def afterRawClose? (name : Text) (t : Text) : Option Text := do
  let t ← Text.dropStart? ['{', '%'] t
  let t ← Text.dropStart? ('e' :: 'n' :: 'd' :: name) (dropDash t).trimStart
  Text.dropStart? ['%', '}'] (dropDash t.trimStart)

/-- Cuts at the first end tag of the raw tag `name`: the body, the end tag and the rest. -/
def cutRaw (name : Text) : Text → Option (Text × Text × Text)
  | [] => none
  | c :: cs =>
    match afterRawClose? name (c :: cs) with
    | some rest => some ([], (c :: cs).take (cs.length + 1 - rest.length), rest)
    | none => (cutRaw name cs).map fun (body, close, rest) => (c :: body, close, rest)

/-- Cuts the first token of a text, which starts with `c`. -/
def cutFirst (c : Char) (cs : Text) : Except Fault (Token × Text) :=
  match c, cs with
  | '{', '{' :: rest =>
    match cutClose '}' '}' rest with
    | some (markup, after) => .ok (.variable markup, after)
    | none => .error .openVariable
  | '{', '%' :: rest =>
    match cutClose '%' '}' rest with
    | some (markup, after) =>
      let name := tagName (trimMarkup markup)
      if rawTags.contains (String.ofList name) then
        match cutRaw name after with
        | some (body, close, after) => .ok (.rawBlock (String.ofList name) markup body close, after)
        | none => .error (.openRaw (String.ofList name))
      else .ok (.tag markup, after)
    | none => .error .openTag
  | c, cs =>
    let (body, rest) := cutText cs
    .ok (.text (c :: body), rest)

/-! ### Every cut leaves less to do -/

theorem length_cutText_le (t : Text) : (cutText t).2.length ≤ t.length := by
  induction t with
  | nil => simp [cutText]
  | cons c cs ih =>
    rw [cutText]
    split
    · simp
    · simpa using Nat.le_succ_of_le ih

theorem length_cutClose_lt {a b : Char} {t markup rest : Text}
    (h : cutClose a b t = some (markup, rest)) : rest.length < t.length := by
  induction t generalizing markup with
  | nil => simp [cutClose] at h
  | cons x t ih =>
    cases t with
    | nil => simp [cutClose] at h
    | cons y t =>
      rw [cutClose] at h
      split at h
      · simp only [Option.some.injEq, Prod.mk.injEq] at h
        simp only [← h.2, List.length_cons]
        omega
      · obtain ⟨⟨m, r⟩, hm, he⟩ := Option.map_eq_some_iff.1 h
        simp only [Prod.mk.injEq] at he
        have := ih (he.2 ▸ hm)
        simp only [List.length_cons] at this ⊢
        omega

theorem length_dropStart_le {p t rest : Text} (h : Text.dropStart? p t = some rest) :
    rest.length ≤ t.length := by
  induction p generalizing t with
  | nil => simp_all [Text.dropStart?]
  | cons a p ih =>
    cases t with
    | nil => simp [Text.dropStart?] at h
    | cons c t =>
      rw [Text.dropStart?] at h
      split at h
      · have := ih h
        simp only [List.length_cons]
        omega
      · simp at h

theorem length_dropDash_le (t : Text) : (dropDash t).length ≤ t.length := by
  unfold dropDash
  split <;> simp

theorem length_trimStart_le (t : Text) : t.trimStart.length ≤ t.length :=
  List.Sublist.length_le (List.dropWhile_sublist _)

theorem length_afterRawClose_le {name t rest : Text} (h : afterRawClose? name t = some rest) :
    rest.length ≤ t.length := by
  simp only [afterRawClose?, bind, Option.bind_eq_some_iff] at h
  obtain ⟨u, hu, v, hv, hw⟩ := h
  have h1 := length_dropStart_le hu
  have h2 := length_dropStart_le hv
  have h3 := length_dropStart_le hw
  have h4 := length_dropDash_le u
  have h5 := length_trimStart_le (dropDash u)
  have h6 := length_dropDash_le v.trimStart
  have h7 := length_trimStart_le v
  omega

theorem length_cutRaw_le {name t body close rest : Text}
    (h : cutRaw name t = some (body, close, rest)) : rest.length ≤ t.length := by
  induction t generalizing body with
  | nil => simp [cutRaw] at h
  | cons c cs ih =>
    rw [cutRaw] at h
    split at h
    · rename_i r hr
      simp only [Option.some.injEq, Prod.mk.injEq] at h
      exact h.2.2 ▸ length_afterRawClose_le hr
    · obtain ⟨⟨b, k, r⟩, hb, he⟩ := Option.map_eq_some_iff.1 h
      simp only [Prod.mk.injEq] at he
      have := ih (he.2.1 ▸ he.2.2 ▸ hb)
      simp only [List.length_cons]
      omega

/-- Cutting a token off a text leaves a shorter text. -/
theorem length_cutFirst_lt {c : Char} {cs : Text} {token : Token} {rest : Text}
    (h : cutFirst c cs = .ok (token, rest)) : rest.length < (c :: cs).length := by
  unfold cutFirst at h
  split at h
  · split at h
    · rename_i hc
      simp only [Except.ok.injEq, Prod.mk.injEq] at h
      have := length_cutClose_lt hc
      simp only [← h.2, List.length_cons]
      omega
    · simp at h
  · split at h
    · rename_i hc
      have := length_cutClose_lt hc
      simp only at h
      split at h
      · split at h
        · rename_i hr
          simp only [Except.ok.injEq, Prod.mk.injEq] at h
          have := length_cutRaw_le hr
          simp only [← h.2, List.length_cons]
          omega
        · simp at h
      · simp only [Except.ok.injEq, Prod.mk.injEq] at h
        simp only [← h.2, List.length_cons]
        omega
    · simp at h
  · simp only [Except.ok.injEq, Prod.mk.injEq] at h
    have := length_cutText_le cs
    simp only [← h.2, List.length_cons]
    omega

/-! ### Cutting a whole text -/

/-- The tokens of a text, and the fault that kept the rest from being cut, if any. -/
def scan (t : Text) : List Token × Option Fault :=
  match t with
  | [] => ([], none)
  | c :: cs =>
    match _h : cutFirst c cs with
    | .error fault => ([], some fault)
    | .ok (token, rest) =>
      let (tokens, fault) := scan rest
      (token :: tokens, fault)
termination_by t.length
decreasing_by exact length_cutFirst_lt _h

end Token

end LiquidLint.Liquid
