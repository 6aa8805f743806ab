import LiquidLint.Proofs.Liquid.Glue
import LiquidLint.Proofs.Liquid.Grammar

/-!
# Text after a template that is refused

A template may be refused because of a token that does not fit, or because something in it is never
closed. In the first case the token and all tokens before it have been cut off in full, and what is
written behind the template changes none of them: a variable and a tag end at the first closing
delimiter, a raw block at its first end tag, and a text at the opening delimiter of the token behind it
(`Cut.append`). So all continuations of the template have these tokens (`Cuts.append`) and are refused
for the same reason. Main statement: `parse_append_of_definite`.
-/

namespace LiquidLint.Liquid

open Token (Cut Cuts NoOpener NoRawEnd opensHere tagLexeme)

/-- A token of the template is at fault, and not that something is never closed. -/
def Cause.Definite : Cause → Prop
  | .emptyTag | .unknownTag _ | .wrongClose _ _ | .misplacedBranch _ => True
  | .openVariable | .openTag | .neverClosed _ => False

namespace Token

/-- A delimiter stays one whatever comes after it. -/
theorem opensHere_append {t : Text} (h : opensHere t = true) (more : Text) :
    opensHere (t ++ more) = true := by
  cases t with
  | nil => cases h
  | cons c t =>
    rcases eq_of_opensHere h with ⟨u, hu⟩ | ⟨u, hu⟩ <;>
      rw [hu] <;> rfl

/-- **One token** is cut off in the same way when more text follows, unless it is a text that ends
with the template. -/
theorem Cut.append {t rest : Text} {token : Token} (h : Cut t token rest)
    (hends : (∃ chars, token = .text chars) → rest ≠ []) (more : Text) :
    Cut (t ++ more) token (rest ++ more) := by
  cases h with
  | @text chars rest hne hno hstop =>
    have hopens : opensHere rest = true := hstop.resolve_left (hends ⟨chars, rfl⟩)
    rw [List.append_assoc]
    refine .text hne ?_ (.inr (opensHere_append hopens more))
    -- only the first character behind the text decides whether its last one is half of a delimiter
    obtain ⟨c, rest, rfl⟩ := List.exists_cons_of_ne_nil (hends ⟨chars, rfl⟩)
    rw [noOpener_iff] at hno ⊢
    refine ⟨hno.1, fun hlast => ?_⟩
    have hfree := hno.2 hlast
    rwa [opensHere_cons_cons '{' c rest (rest ++ more)] at hfree
  | output rest hm =>
    rw [List.append_assoc]
    exact .output (rest ++ more) hm
  | tag rest hm hname =>
    rw [List.append_assoc]
    exact .tag (rest ++ more) hm hname
  | rawBlock hm hname hclose hno =>
    rw [List.append_assoc]
    refine .rawBlock hm hname hclose ?_
    -- an end tag that starts in the body would end before the brace of the one that was found
    have hword := isWord_of_mem_rawTags _ hname
    exact (noRawEnd_brace hword).2 ((noRawEnd_brace hword).1 hno)

/-- What can be cut into tokens is not empty. -/
theorem Cuts.ne_nil {t : Text} {token : Token} {tokens : List Token} {fault : Option Fault}
    (h : Cuts t (token :: tokens) fault) : t ≠ [] := by
  cases h with
  | cut hcut _ => exact hcut.ne_nil

/-- **The tokens up to a tag** are cut off in the same way when more text follows. -/
theorem Cuts.append {t m : Text} {front later : List Token} {fault : Option Fault}
    (h : Cuts t (front ++ .tag m :: later) fault) (more : Text) :
    ∃ later' fault', Cuts (t ++ more) (front ++ .tag m :: later') fault' := by
  induction front generalizing t with
  | nil =>
    cases h with
    | @cut _ rest _ _ _ hcut _ =>
      have hcut' := hcut.append (by rintro ⟨_, hchars⟩; cases hchars) more
      exact ⟨_, _, .cut hcut' (cuts_scan (rest ++ more))⟩
  | cons token front ih =>
    cases h with
    | @cut _ rest _ _ _ hcut hrest =>
      obtain ⟨later', fault', hmore⟩ := ih hrest
      -- the tag is still to come, so the rest of the template is not empty
      obtain ⟨next, others, hnext⟩ : ∃ next others, front ++ .tag m :: later = next :: others :=
        List.exists_cons_of_ne_nil (by simp)
      have hne : rest ≠ [] := Cuts.ne_nil (hnext ▸ hrest : Cuts rest (next :: others) fault)
      exact ⟨later', fault', .cut (hcut.append (fun _ => hne) more) hmore⟩

end Token

/-- **A definite error is stable.** A template that is refused because of a token that does not fit (an
empty tag, an unknown one, an end tag that closes nothing or the wrong block, or a misplaced branch tag)
is refused for the same reason and in the same line whatever is written behind it. -/
theorem parse_append_of_definite {s : Text} {e : ParseError} (h : parse s = .error e)
    (hdefinite : e.cause.Definite) (t : Text) : parse (s ++ t) = .error e := by
  cases blames_of_parse h with
  | @token spine token later fault cause hcuts hfits hviable hstuck hrejects =>
    obtain ⟨m, rfl⟩ : ∃ m, token = .tag m := by
      generalize spine.parent = parent at hrejects
      cases hrejects <;> exact ⟨_, rfl⟩
    obtain ⟨later', fault', hcuts'⟩ := hcuts.append t
    exact parse_of_blames (.token hcuts' hfits hviable hstuck hrejects)
  | @fault _ fault => cases fault <;> exact hdefinite.elim
  | unclosed => exact hdefinite.elim

/-- A raw block that holds half of an end tag, a wrong end tag behind it and a brace at the end; what
follows makes an opening delimiter of the brace. -/
theorem parse_append_of_definite_brace :
    let s : Text := "\n\x7b%raw%\x7d\x7b% end\x7b%endraw%\x7d\n\x7b% if a %\x7d\x7b%endfor%\x7d\x7b".toList
    let t : Text := "\x7b%endraw%\x7d".toList
    let e : ParseError := ⟨.wrongClose "endfor" "if", 3⟩
    parse s = .error e ∧ e.cause.Definite ∧ parse (s ++ t) = .error e := by
  intro s t e
  have hmap : (parse s).map (fun _ => ()) = .error e := by decide +kernel
  have h : parse s = .error e := by
    cases hparse : parse s with
    | ok root => rw [hparse] at hmap; cases hmap
    | error e' => rw [hparse] at hmap; cases hmap; rfl
  exact ⟨h, trivial, parse_append_of_definite h trivial t⟩

end LiquidLint.Liquid
