import Mathlib.Data.List.Forall2
import Phrasebook.Json.Parser
import Phrasebook.Json.Printer
import Phrasebook.Proofs.Json.Numeral

/-!
# JSON values are read back

The text of a value is cut into the tokens of the value, and these make the value again. Strings
may hold any characters: what is escaped is what the reader takes for an escape. Of numbers, only
the digits have to be in order.

* `Json.Proper`: the numerals of a value are proper.
* `Json.tokens`: the tokens of a value.
* `Json.scan_chars`: the text of a value is cut into its tokens.
* `Json.Parser.ofTokens?_tokens`: the tokens of a value make the value.
* `Json.ofText?_text`: a value is read back from its text.
-/

namespace Phrasebook

namespace Json

/-! ### Strings -/

namespace Token

theorem hexNumber?_fourHexDigits : ∀ n < 0x20,
    (match fourHexDigits n with
    | [a, b, c, d] => hexNumber? a b c d
    | _ => none) = some n := by
  decide

/-- A character is read back from its escape. -/
theorem scanUnits_escape (c : Char) (cs : List Char) :
    scanUnits (escape c ++ cs) =
      (scanUnits cs).map fun (units, rest) => (c.toNat :: units, rest) := by
  have hmap : ∀ (unit : Nat) (found : Option (List Nat × List Char)),
      (do let (units, rest) ← found; return (unit :: units, rest)) =
        found.map fun (units, rest) => (unit :: units, rest) := by
    rintro unit (_ | _) <;> rfl
  rw [escape]
  split
  · next h => subst h; exact hmap _ _
  split
  · next h => subst h; exact hmap _ _
  split
  · next h => subst h; exact hmap _ _
  split
  · next h => subst h; exact hmap _ _
  split
  · next h => subst h; exact hmap _ _
  split
  · next h => subst h; exact hmap _ _
  split
  · next h => subst h; exact hmap _ _
  split
  · next hcontrol =>
    -- A control character is written as a number of four digits.
    have hnumber := hexNumber?_fourHexDigits c.toNat hcontrol
    simp only [fourHexDigits, List.map_cons, List.map_nil] at hnumber
    simp only [fourHexDigits, List.map_cons, List.map_nil, List.cons_append, List.nil_append]
    rw [scanUnits, hnumber]
    exact hmap _ _
  · next hquote hbackslash _ _ _ _ _ hcontrol =>
    rw [List.singleton_append, scanUnits, if_neg hcontrol]
    · exact hmap _ _
    · exact hquote
    · exact fun _ _ _ _ _ h _ => hbackslash h
    · exact fun _ _ h _ => hbackslash h

/-- The characters of a literal are read up to the quote that ends it. -/
theorem scanUnits_flatMap_escape (cs rest : List Char) :
    scanUnits (cs.flatMap escape ++ '"' :: rest) = some (cs.map Char.toNat, rest) := by
  induction cs with
  | nil => rw [List.flatMap_nil, List.nil_append, scanUnits, List.map_nil]
  | cons c cs ih =>
    rw [List.flatMap_cons, List.append_assoc, scanUnits_escape, ih]
    rfl

/-- No character is half of a surrogate pair. -/
theorem not_surrogate (c : Char) : ¬ (0xD800 ≤ c.toNat ∧ c.toNat < 0xE000) := by
  have hvalid : c.toNat < 0xD800 ∨ 0xDFFF < c.toNat ∧ c.toNat < 0x110000 := c.valid
  omega

/-- The code units of characters are those characters. -/
theorem joinUnits_map (cs : List Char) : joinUnits (cs.map Char.toNat) = some cs := by
  induction cs with
  | nil => rfl
  | cons c cs ih =>
    have hc := not_surrogate c
    cases cs with
    | nil => rw [List.map_singleton, joinUnits, if_neg hc, Char.ofNat_toNat]
    | cons d cs =>
      rw [List.map_cons, List.map_cons, joinUnits, if_neg (by omega), if_neg hc,
        Char.ofNat_toNat, ← List.map_cons, ih]
      rfl

theorem scanString_literal (text : Option String) (rest : List Char) :
    ∃ body, literal text = '"' :: body ∧ scanString (body ++ rest) = some (text, rest) := by
  cases text with
  | none =>
    have hliteral : literal none = ['"', '\\', 'u', 'd', '8', '0', '0', '"'] := by decide
    have hnumber : hexNumber? 'd' '8' '0' '0' = some 0xD800 := by decide
    refine ⟨_, hliteral, ?_⟩
    simp only [List.cons_append, List.nil_append, scanString, scanUnits, hnumber]
    rfl
  | some text =>
    refine ⟨_, rfl, ?_⟩
    rw [scanString, List.append_assoc, List.singleton_append, scanUnits_flatMap_escape]
    simp only [Option.bind_eq_bind, Option.bind_some, joinUnits_map, Option.map_some,
      String.ofList_toList]
    rfl

/-! ### Tokens -/

/-- A token at the beginning of a text is read first. -/
theorem scan_of_scanOne {c : Char} {cs rest : List Char} {token : Token}
    (hspace : isSpace c = false) (h : scanOne (c :: cs) = some (token, rest)) :
    scan (c :: cs) = (scan rest).map (token :: ·) := by
  rw [scan, if_neg (by rw [hspace]; exact Bool.false_ne_true)]
  split
  · next hnone =>
    rw [h] at hnone
    cases hnone
  · next token' rest' hsome =>
    rw [h] at hsome
    cases hsome
    cases scan rest <;> rfl

theorem scan_literal (text : Option String) (rest : List Char) :
    scan (literal text ++ rest) = (scan rest).map (.scalar (.string text) :: ·) := by
  obtain ⟨body, hbody, hscan⟩ := scanString_literal text rest
  rw [hbody]
  refine scan_of_scanOne rfl ?_
  change (scanString (body ++ rest)).map _ = _
  rw [hscan]
  rfl

/-- What begins with a digit or a minus sign is a numeral. -/
theorem scanOne_eq_scanNumeral {c : Char} {cs : List Char} (hc : c = '-' ∨ c.isDigit = true) :
    scanOne (c :: cs) = (scanNumeral (c :: cs)).map fun (n, rest) => (scalar (number n), rest) := by
  unfold scanOne
  split
  case h_11 => rfl
  all_goals
    next heq =>
      obtain ⟨rfl, -⟩ := List.cons.inj heq
      exact absurd hc (by decide)

theorem isSpace_eq_false {c : Char} (hc : c = '-' ∨ c.isDigit = true) : isSpace c = false := by
  rcases hc with rfl | hdigit
  · rfl
  · simp only [isSpace, Bool.or_eq_false_iff, beq_eq_false_iff_ne]
    refine ⟨⟨⟨?_, ?_⟩, ?_⟩, ?_⟩ <;> rintro rfl <;> cases hdigit

theorem scan_numeral {n : Numeral} {rest : List Char} (hn : n.Proper) (hrest : Delimited rest) :
    scan (n.chars ++ rest) = (scan rest).map (.scalar (.number n) :: ·) := by
  have hscan := Numeral.scanNumeral_chars hn hrest
  obtain ⟨c, cs, hchars, hc⟩ := Numeral.exists_cons_of_chars hn
  rw [hchars, List.cons_append] at hscan ⊢
  refine scan_of_scanOne (isSpace_eq_false hc) ?_
  rw [scanOne_eq_scanNumeral hc, hscan]
  rfl

/-- Tokens with commas between them. -/
def separated : List (List Token) → List Token
  | [] => []
  | [tokens] => tokens
  | tokens :: others => tokens ++ .comma :: separated others

end Token

/-! ### Values -/

mutual

/-- The numerals of a value are proper. -/
def Proper : Json → Prop
  | null | bool _ | string _ => True
  | number n => n.Proper
  | array items => ProperItems items
  | object fields => ProperFields fields

/-- The numerals of some items are proper. -/
def ProperItems : List Json → Prop
  | [] => True
  | item :: items => Proper item ∧ ProperItems items

/-- The numerals of some fields are proper. -/
def ProperFields : List (Option String × Json) → Prop
  | [] => True
  | (_, value) :: fields => Proper value ∧ ProperFields fields

end

theorem properItems_iff {items : List Json} :
    ProperItems items ↔ ∀ item ∈ items, item.Proper := by
  induction items with
  | nil => simp [ProperItems]
  | cons item items ih => simp [ProperItems, ih]

theorem properFields_iff {fields : List (Option String × Json)} :
    ProperFields fields ↔ ∀ field ∈ fields, field.2.Proper := by
  induction fields with
  | nil => simp [ProperFields]
  | cons field fields ih => simp [ProperFields, ih]

theorem proper_ofFields {fields : List (String × Json)} (h : ∀ field ∈ fields, field.2.Proper) :
    (ofFields fields).Proper :=
  properFields_iff.2 (List.forall_mem_map.2 h)

mutual

/-- The tokens of a value. -/
def tokens : Json → List Token
  | null => [.scalar null]
  | bool b => [.scalar (bool b)]
  | number n => [.scalar (number n)]
  | string text => [.scalar (string text)]
  | array items => .openArray :: (Token.separated (tokensOfItems items) ++ [.closeArray])
  | object fields => .openObject :: (Token.separated (tokensOfFields fields) ++ [.closeObject])

/-- The tokens of each item. -/
def tokensOfItems : List Json → List (List Token)
  | [] => []
  | item :: items => tokens item :: tokensOfItems items

/-- The tokens of each field. -/
def tokensOfFields : List (Option String × Json) → List (List Token)
  | [] => []
  | (name, value) :: fields =>
    (.scalar (.string name) :: .colon :: tokens value) :: tokensOfFields fields

end

/-- Texts that are cut into some tokens each are cut into them with commas between. -/
theorem scan_separated {texts : List (List Char)} {tokens : List (List Token)}
    (h : List.Forall₂ (fun text tokens => ∀ rest, Delimited rest →
      Token.scan (text ++ rest) = (Token.scan rest).map (tokens ++ ·)) texts tokens)
    {rest : List Char} (hrest : Delimited rest) :
    Token.scan (separated texts ++ rest) =
      (Token.scan rest).map (Token.separated tokens ++ ·) := by
  induction h with
  | nil => simp [separated, Token.separated]
  | @cons text tokens texts others hfirst hothers ih =>
    cases hothers with
    | nil => exact hfirst rest hrest
    | @cons text' tokens' texts others hsecond hothers =>
      -- The comma ends the first text, whatever it is.
      have hcomma : Token.scan (',' :: (separated (text' :: texts) ++ rest)) =
          (Token.scan (separated (text' :: texts) ++ rest)).map (.comma :: ·) :=
        Token.scan_of_scanOne rfl rfl
      rw [separated, Token.separated, List.append_assoc, List.cons_append,
        hfirst _ (delimited_cons (by decide)), hcomma, ih, Option.map_map, Option.map_map]
      · congr 1
        funext tokens
        simp
      · simp
      · simp

mutual

/-- The text of a value is cut into its tokens. -/
theorem scan_chars {v : Json} (hv : v.Proper) {rest : List Char} (hrest : Delimited rest) :
    Token.scan (v.chars ++ rest) = (Token.scan rest).map (v.tokens ++ ·) := by
  match v with
  | null => exact Token.scan_of_scanOne rfl rfl
  | bool true => exact Token.scan_of_scanOne rfl rfl
  | bool false => exact Token.scan_of_scanOne rfl rfl
  | number n => exact Token.scan_numeral hv hrest
  | string text => exact Token.scan_literal text rest
  | array items =>
    have hclose : Token.scan (']' :: rest) = (Token.scan rest).map (.closeArray :: ·) :=
      Token.scan_of_scanOne rfl rfl
    have hend : Delimited (']' :: rest) := delimited_cons (by decide)
    have hitems := scan_separated (forall₂_scan_items hv) hend
    rw [hclose, Option.map_map] at hitems
    rw [chars, tokens, List.cons_append, List.append_assoc, List.singleton_append,
      Token.scan_of_scanOne (c := '[') rfl rfl, hitems, Option.map_map]
    congr 1
    funext tokens
    simp
  | object fields =>
    have hclose : Token.scan ('\x7d' :: rest) = (Token.scan rest).map (.closeObject :: ·) :=
      Token.scan_of_scanOne rfl rfl
    have hend : Delimited ('\x7d' :: rest) := delimited_cons (by decide)
    have hfields := scan_separated (forall₂_scan_fields hv) hend
    rw [hclose, Option.map_map] at hfields
    rw [chars, tokens, List.cons_append, List.append_assoc, List.singleton_append,
      Token.scan_of_scanOne (c := '\x7b') rfl rfl, hfields, Option.map_map]
    congr 1
    funext tokens
    simp

theorem forall₂_scan_items {items : List Json} (hitems : ProperItems items) :
    List.Forall₂ (fun text tokens => ∀ rest, Delimited rest →
      Token.scan (text ++ rest) = (Token.scan rest).map (tokens ++ ·))
      (charsOfItems items) (tokensOfItems items) := by
  match items with
  | [] => exact .nil
  | item :: items =>
    exact .cons (fun _ hrest => scan_chars hitems.1 hrest) (forall₂_scan_items hitems.2)

theorem forall₂_scan_fields {fields : List (Option String × Json)}
    (hfields : ProperFields fields) :
    List.Forall₂ (fun text tokens => ∀ rest, Delimited rest →
      Token.scan (text ++ rest) = (Token.scan rest).map (tokens ++ ·))
      (charsOfFields fields) (tokensOfFields fields) := by
  match fields with
  | [] => exact .nil
  | (name, value) :: fields =>
    refine .cons (fun rest hrest => ?_) (forall₂_scan_fields hfields.2)
    have hcolon : Token.scan (':' :: (value.chars ++ rest)) =
        (Token.scan (value.chars ++ rest)).map (.colon :: ·) := Token.scan_of_scanOne rfl rfl
    rw [List.append_assoc, List.cons_append, Token.scan_literal, hcolon,
      scan_chars hfields.1 hrest, Option.map_map, Option.map_map]
    rfl

end

theorem tokensOfItems_eq_map (items : List Json) : tokensOfItems items = items.map tokens := by
  induction items with
  | nil => rfl
  | cons item items ih => rw [tokensOfItems, ih, List.map_cons]

/-- The tokens of a field. -/
def fieldTokens : Option String × Json → List Token
  | (name, value) => .scalar (.string name) :: .colon :: tokens value

theorem tokensOfFields_eq_map (fields : List (Option String × Json)) :
    tokensOfFields fields = fields.map fieldTokens := by
  induction fields with
  | nil => rfl
  | cons field fields ih => rw [tokensOfFields, ih, List.map_cons, fieldTokens]

/-! ### Trees -/

namespace Parser

open State

/-- A value may come, perhaps as the first item of an array. -/
def AtValue (expects : Expectation) : Prop := expects = .value ∨ expects = .itemOrEnd

/-- The name of a field may come, perhaps that of the first one. -/
def AtName (expects : Expectation) : Prop := expects = .name ∨ expects = .nameOrEnd

/-- Elements with commas between them are added to what is open, one after another. -/
theorem foldlM_separated {β : Type} {frame : List β → Frame} {tokens : β → List Token}
    {Begins : Expectation → Prop} {again : Expectation}
    (hcomma : ∀ xs frames, comma? (frame xs :: frames) = some ⟨frame xs :: frames, again⟩)
    (hagain : Begins again) {elements : List β}
    (hread : ∀ x ∈ elements, ∀ xs frames expects rest, Begins expects →
      (tokens x ++ rest).foldlM step? ⟨frame xs :: frames, expects⟩ =
        rest.foldlM step? ⟨frame (x :: xs) :: frames, .commaOrEnd⟩)
    (hne : elements ≠ []) {expects : Expectation} (hexpects : Begins expects) (before : List β)
    (frames : List Frame) (rest : List Token) :
    (Token.separated (elements.map tokens) ++ rest).foldlM step?
        ⟨frame before :: frames, expects⟩ =
      rest.foldlM step? ⟨frame (elements.reverse ++ before) :: frames, .commaOrEnd⟩ := by
  induction elements generalizing before expects with
  | nil => exact absurd rfl hne
  | cons x elements ih =>
    obtain ⟨hx, helements⟩ := List.forall_mem_cons.1 hread
    cases elements with
    | nil => exact hx before frames expects rest hexpects
    | cons y elements =>
      have hrest := ih helements (List.cons_ne_nil y elements) hagain (x :: before)
      rw [List.map_cons, List.map_cons, Token.separated, List.append_assoc,
        hx before frames expects _ hexpects, List.cons_append, List.foldlM_cons]
      · change (comma? (frame (x :: before) :: frames)).bind _ = _
        rw [hcomma, Option.bind_some, ← List.map_cons, hrest, List.reverse_cons (a := x),
          List.append_assoc, List.singleton_append]
      · exact List.cons_ne_nil _ _

/-- Where a value may come, the tokens of a value put it there. -/
def Puts (v : Json) : Prop :=
  ∀ frames expects rest, AtValue expects →
    (v.tokens ++ rest).foldlM step? ⟨frames, expects⟩ = (put? v frames).bind (rest.foldlM step?)

theorem puts_scalar {v : Json} (htokens : v.tokens = [.scalar v]) : Puts v := by
  rintro frames expects rest (rfl | rfl) <;> rw [htokens] <;> rfl

/-- What is closed is put where it was opened. -/
theorem foldlM_close {frame : Frame} {frames : List Frame} {token : Token} {v : Json}
    {rest : List Token} (htoken : token ≠ .comma)
    (hclose : close? (frame :: frames) token = put? v frames) :
    (token :: rest).foldlM step? ⟨frame :: frames, .commaOrEnd⟩ =
      (put? v frames).bind (rest.foldlM step?) := by
  rw [List.foldlM_cons, ← hclose]
  cases token <;> first | rfl | exact absurd rfl htoken

theorem puts_array {items : List Json} (hitems : ∀ item ∈ items, Puts item) :
    Puts (.array items) := by
  intro frames expects rest hexpects
  have hopen : (tokens (.array items) ++ rest).foldlM step? ⟨frames, expects⟩ =
      (Token.separated (items.map tokens) ++ .closeArray :: rest).foldlM step?
        ⟨.array [] :: frames, .itemOrEnd⟩ := by
    rw [tokens, tokensOfItems_eq_map, List.cons_append, List.append_assoc, List.foldlM_cons]
    rcases hexpects with rfl | rfl <;> rfl
  rw [hopen]
  by_cases hne : items = []
  · -- Only an array without items is closed where its first item may come.
    rw [hne]
    rfl
  · rw [@foldlM_separated _ .array tokens AtValue .value (fun _ _ => rfl) (.inl rfl) items
      (fun item hitem xs frames expects rest he => hitems item hitem _ expects rest he) hne _
      (.inr rfl)]
    refine foldlM_close (by simp) ?_
    rw [close?, List.append_nil, List.reverse_reverse]

theorem puts_object {fields : List (Option String × Json)}
    (hfields : ∀ field ∈ fields, Puts field.2) : Puts (.object fields) := by
  intro frames expects rest hexpects
  have hopen : (tokens (.object fields) ++ rest).foldlM step? ⟨frames, expects⟩ =
      (Token.separated (fields.map fieldTokens) ++ .closeObject :: rest).foldlM step?
        ⟨.object [] :: frames, .nameOrEnd⟩ := by
    rw [tokens, tokensOfFields_eq_map, List.cons_append, List.append_assoc, List.foldlM_cons]
    rcases hexpects with rfl | rfl <;> rfl
  rw [hopen]
  by_cases hne : fields = []
  · rw [hne]
    rfl
  · rw [@foldlM_separated _ .object fieldTokens AtName .name (fun _ _ => rfl) (.inl rfl) fields
      (fun field hfield xs frames expects rest he => ?_) hne _ (.inr rfl)]
    · refine foldlM_close (by simp) ?_
      rw [close?, List.append_nil, List.reverse_reverse]
    · have hvalue := hfields field hfield (.field xs field.1 :: frames) .value rest (.inl rfl)
      refine Eq.trans ?_ hvalue
      rw [fieldTokens, List.cons_append, List.cons_append, List.foldlM_cons]
      rcases he with rfl | rfl <;> rfl

mutual

/-- The tokens of a value put it where a value may come. -/
theorem puts (v : Json) : Puts v := by
  match v with
  | null => exact puts_scalar rfl
  | bool b => exact puts_scalar rfl
  | number n => exact puts_scalar rfl
  | string text => exact puts_scalar rfl
  | array items => exact puts_array (puts_items items)
  | object fields => exact puts_object (puts_fields fields)

theorem puts_items (items : List Json) : ∀ item ∈ items, Puts item := by
  match items with
  | [] => exact fun _ h => absurd h List.not_mem_nil
  | item :: items => exact List.forall_mem_cons.2 ⟨puts item, puts_items items⟩

theorem puts_fields (fields : List (Option String × Json)) : ∀ field ∈ fields, Puts field.2 := by
  match fields with
  | [] => exact fun _ h => absurd h List.not_mem_nil
  | (name, value) :: fields => exact List.forall_mem_cons.2 ⟨puts value, puts_fields fields⟩

end

/-- The tokens of a value make the value. -/
theorem ofTokens?_tokens (v : Json) : ofTokens? v.tokens = some v := by
  have h := puts v [] .value [] (.inl rfl)
  rw [List.append_nil] at h
  rw [ofTokens?, initial, h]
  rfl

end Parser

/-- A value is read back from its text. -/
theorem ofText?_text {v : Json} (hv : v.Proper) : ofText? v.text = some v := by
  have hscan := scan_chars hv delimited_nil
  rw [List.append_nil, Token.scan, Option.map_some, List.append_nil] at hscan
  rw [ofText?, text, String.toList_ofList, ofChars?, hscan]
  exact Parser.ofTokens?_tokens v

end Json

end Phrasebook
