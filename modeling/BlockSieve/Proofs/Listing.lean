import BlockSieve.AllowList.Document
import BlockSieve.Proofs.JsonRoundTrip

/-!
Names listed in a document, in each of the three formats: a list of strings
between double quotation marks under one key. In such strings all formats
agree on what stands for what, as long as every character is one that ASCII
prints: a backslash before a quotation mark or a backslash makes it an
ordinary character, and everything else stands for itself, whatever it would
mean without the quotation marks.
-/

namespace BlockSieve

/-- Every character is one that ASCII prints: from the space to the tilde. -/
def Text.Printed (t : Text) : Prop := ∀ c ∈ t, 0x20 ≤ c.toNat ∧ c.toNat ≤ 0x7E

namespace Listing

/-- What is left open in how names are listed: how many spaces follow a comma, and whether the
document ends with a newline. -/
structure Spacing where
  afterComma : Nat
  endsLine : Bool

/-- How a character is written between quotation marks. -/
def escape (c : Char) : Text := if c = '"' ∨ c = '\\' then ['\\', c] else [c]

/-- A name between quotation marks. -/
def quoted (name : Text) : Text := '"' :: (name.flatMap escape ++ ['"'])

/-- The names after the first, each after a comma. -/
def others (s : Spacing) (names : List Text) : Text :=
  names.flatMap fun name => ',' :: (List.replicate s.afterComma ' ' ++ quoted name)

/-- The names between brackets. -/
def bracketed (s : Spacing) : List Text → Text
  | [] => ['[', ']']
  | name :: names => '[' :: (quoted name ++ (others s names ++ [']']))

/-- What comes after the list. -/
def ending (s : Spacing) : Text := if s.endsLine then ['\n'] else []

end Listing

open Listing

/-- A document of a format that lists names. -/
def Format.listing (s : Spacing) (names : List Text) : Format → Text
  | .toml => "keep = ".toList ++ (bracketed s names ++ ending s)
  | .json => '\x7b' :: ("\"keep\": ".toList ++ (bracketed s names ++ '\x7d' :: ending s))
  | .yaml => "keep: ".toList ++ (bracketed s names ++ ending s)

namespace Listing

variable {s : Spacing} {name : Text} {names : List Text}

theorem escape_of_plain {c : Char} (hquote : c ≠ '"') (hslash : c ≠ '\\') : escape c = [c] :=
  if_neg (not_or.mpr ⟨hquote, hslash⟩)

theorem printed_quoted (h : name.Printed) : (quoted name).Printed := by
  have hescape : ∀ c ∈ name.flatMap escape, 0x20 ≤ c.toNat ∧ c.toNat ≤ 0x7E := by
    intro c hc
    obtain ⟨d, hd, hmem⟩ := List.mem_flatMap.mp hc
    unfold escape at hmem
    split at hmem
    · rcases List.mem_cons.mp hmem with rfl | hmem
      · decide
      · exact List.mem_singleton.mp hmem ▸ h d hd
    · exact List.mem_singleton.mp hmem ▸ h d hd
  intro c hc
  rcases List.mem_cons.mp hc with rfl | hc
  · decide
  · rcases List.mem_append.mp hc with hc | hc
    · exact hescape c hc
    · exact List.mem_singleton.mp hc ▸ by decide

theorem printed_others (h : ∀ name ∈ names, name.Printed) : (others s names).Printed := by
  intro c hc
  obtain ⟨name, hname, hc⟩ := List.mem_flatMap.mp hc
  rcases List.mem_cons.mp hc with rfl | hc
  · decide
  · rcases List.mem_append.mp hc with hc | hc
    · exact List.eq_of_mem_replicate hc ▸ by decide
    · exact printed_quoted (h name hname) c hc

theorem printed_bracketed (h : ∀ name ∈ names, name.Printed) :
    (bracketed s names).Printed := by
  cases names with
  | nil =>
      intro c hc
      simp only [bracketed, List.mem_cons, List.not_mem_nil, or_false] at hc
      rcases hc with rfl | rfl
      · decide
      · decide
  | cons name names =>
      obtain ⟨hname, hnames⟩ := List.forall_mem_cons.mp h
      intro c hc
      simp only [bracketed, List.mem_cons, List.mem_append, List.not_mem_nil, or_false] at hc
      rcases hc with rfl | hc | hc | rfl
      · decide
      · exact printed_quoted hname c hc
      · exact printed_others hnames c hc
      · decide

theorem mapM_map_eq_some {α β : Type} {f : β → Option α} {g : α → β}
    (h : ∀ a, f (g a) = some a) (l : List α) : (l.map g).mapM f = some l := by
  induction l with
  | nil => rfl
  | cons a l ih => simp [h, ih]

end Listing

/-! ### JSON -/

namespace Json

variable {s : Spacing} {rest : Text} {tokens : List Token}

theorem escape_of_printed {c : Char} (h : 0x20 ≤ c.toNat) : escape c = Listing.escape c := by
  unfold escape
  split
  · rfl
  · rfl
  · exact absurd h (by decide)
  · exact absurd h (by decide)
  · exact absurd h (by decide)
  · exact absurd h (by decide)
  · exact absurd h (by decide)
  · next hquote hslash _ _ _ _ _ =>
      rw [if_neg (by omega), escape_of_plain hquote hslash]

theorem quote_of_printed {t : Text} (h : t.Printed) : quote t = quoted t := by
  have hescape : t.flatMap escape = t.flatMap Listing.escape :=
    List.flatMap_congr fun c hc => escape_of_printed (h c hc).1
  rw [quote, hescape]
  rfl

namespace Token

theorem all?_quoted {t : Text} (h : t.Printed) (htokens : all? rest = some tokens) :
    all? (quoted t ++ rest) = some (.string (some t) :: tokens) := by
  rw [← quote_of_printed h]
  exact all?_quote t htokens

theorem all?_comma (htokens : all? rest = some tokens) :
    all? (',' :: rest) = some (.comma :: tokens) :=
  all?_next rfl rfl (Nat.le_refl _) htokens

theorem all?_openArray (htokens : all? rest = some tokens) :
    all? ('[' :: rest) = some (.openArray :: tokens) :=
  all?_next rfl rfl (Nat.le_refl _) htokens

theorem all?_closeArray (htokens : all? rest = some tokens) :
    all? (']' :: rest) = some (.closeArray :: tokens) :=
  all?_next rfl rfl (Nat.le_refl _) htokens

theorem all?_others {names : List Text} (h : ∀ name ∈ names, name.Printed)
    (htokens : all? rest = some tokens) :
    all? (others s names ++ rest) = some (itemTokens (names.map Value.text) ++ tokens) := by
  induction names with
  | nil => exact htokens
  | cons name names ih =>
      obtain ⟨hname, hnames⟩ := List.forall_mem_cons.mp h
      have htail := all?_quoted hname (ih hnames)
      rw [← all?_spaces s.afterComma] at htail
      have hcomma := all?_comma htail
      simpa [others, itemTokens, Value.text, Value.tokens] using hcomma

theorem all?_bracketed {names : List Text} (h : ∀ name ∈ names, name.Printed)
    (htokens : all? rest = some tokens) :
    all? (bracketed s names ++ rest) =
      some ((Value.array (names.map Value.text)).tokens ++ tokens) := by
  have hclose := all?_closeArray htokens
  cases names with
  | nil => exact all?_openArray hclose
  | cons name names =>
      obtain ⟨hname, hnames⟩ := List.forall_mem_cons.mp h
      have hitems := all?_quoted hname (all?_others (s := s) hnames hclose)
      have hopen := all?_openArray hitems
      simpa [bracketed, Value.text, Value.tokens] using hopen

end Token

/-- The object that a listing of names is in JSON. -/
def listed (names : List Text) : Value :=
  .object [(some keepKey, .array (names.map Value.text))]

theorem plain_listed (names : List Text) : (listed names).Plain := by
  refine .object (by simp) fun m hm => ?_
  obtain rfl := List.mem_singleton.mp hm
  refine .array fun v hv => ?_
  obtain ⟨name, -, rfl⟩ := List.mem_map.mp hv
  exact .text name

theorem names?_listed (names : List Text) : (listed names).names? = some names := by
  have hfilter : [(some keepKey, Value.array (names.map Value.text))].filter
      (·.1 = some keepKey) = [(some keepKey, .array (names.map Value.text))] := by simp
  simp only [listed, Value.names?, List.all_cons, List.all_nil, Option.isSome_some, Bool.and_self,
    if_true, hfilter, Value.texts?]
  exact mapM_map_eq_some (g := Value.text) (fun _ => rfl) names

theorem read?_listing {names : List Text} (h : ∀ name ∈ names, name.Printed) :
    read? (Format.json.listing s names) = some (listed names) := by
  have hend : Token.all? (ending s) = some [] := by
    unfold ending
    split
    · rw [Token.all?_space rfl, Token.all?_nil]
    · exact Token.all?_nil
  have hclose : Token.all? ('\x7d' :: ending s) = some [.closeObject] :=
    Token.all?_next rfl rfl (Nat.le_refl _) hend
  have hlist := Token.all?_member keepKey (Token.all?_bracketed (s := s) h hclose)
  have htokens : Token.all? (Format.json.listing s names) = some ((listed names).tokens ++ []) := by
    refine (Token.all?_next rfl rfl (Nat.le_refl _) hlist).trans ?_
    simp [listed, Value.tokens, memberTokens]
  have hread : readFrom .item [] ((listed names).tokens ++ []) = some (listed names) := by
    rw [(plain_listed names).reads, readFrom]
  simp only [read?, htokens, Option.bind_eq_bind, Option.bind_some, hread]

end Json

/-! ### TOML -/

namespace Toml

variable {s : Spacing} {rest : Text} {name : Text} {names : List Text}

theorem isBasic_of_printed {c : Char} (h : 0x20 ≤ c.toNat ∧ c.toNat ≤ 0x7E) (hquote : c ≠ '"')
    (hslash : c ≠ '\\') : isBasic c = true := by
  have hdelete : c.toNat ≠ 0x7F := by omega
  simp [isBasic, h.1, hdelete, hquote, hslash]

theorem basicBody_escaped (h : name.Printed) (rest : Text) :
    basicBody (name.flatMap escape ++ '"' :: rest) = some (name, rest) := by
  induction name with
  | nil =>
      rw [List.flatMap_nil, List.nil_append, basicBody]
      rfl
  | cons c name ih =>
      obtain ⟨hc, hname⟩ := List.forall_mem_cons.mp h
      rw [List.flatMap_cons, List.append_assoc]
      by_cases hplain : c ≠ '"' ∧ c ≠ '\\'
      · rw [escape_of_plain hplain.1 hplain.2, List.singleton_append, basicBody,
          if_neg hplain.1, if_neg hplain.2, if_pos (isBasic_of_printed hc hplain.1 hplain.2),
          ih hname]
        rfl
      · have hescape : escape? (c :: (name.flatMap escape ++ '"' :: rest)) =
            some (c, name.flatMap escape ++ '"' :: rest) := by
          rcases Decidable.not_and_iff_or_not.mp hplain with hc | hc
          · rw [Decidable.not_not.mp hc]
            rfl
          · rw [Decidable.not_not.mp hc]
            rfl
        have hwritten : escape c = ['\\', c] := if_pos (by tauto)
        rw [hwritten, List.cons_append, List.singleton_append, basicBody,
          if_neg (by decide), if_pos rfl, hescape]
        simp only [List.length_cons, Nat.le_succ, if_true, ih hname]
        rfl

theorem string?_of_single {t : Text} (h : ∀ r, t ≠ '"' :: '"' :: r) :
    string? ('"' :: t) = basicBody t := by
  unfold string?
  split
  · next r heq => exact absurd (List.cons.inj heq).2 (h r)
  · next heq => rw [(List.cons.inj heq).2]
  · next heq => exact absurd (List.cons.inj heq).1 (by decide)
  · next heq => exact absurd (List.cons.inj heq).1 (by decide)
  · next hno _ _ => exact absurd rfl (hno t)

/-- A quoted name is a string on one line, if no quotation mark follows it. -/
theorem string?_quoted (h : name.Printed) (hrest : rest.head? ≠ some '"') :
    string? (quoted name ++ rest) = some (name, rest) := by
  rw [quoted, List.cons_append, List.append_assoc, List.singleton_append]
  refine (string?_of_single fun r heq => ?_).trans (basicBody_escaped h rest)
  cases name with
  | nil =>
      rw [List.flatMap_nil, List.nil_append, List.cons_inj_right] at heq
      exact hrest (by rw [heq]; rfl)
  | cons c name =>
      rw [List.flatMap_cons, List.append_assoc] at heq
      unfold escape at heq
      split at heq
      · cases heq
      · next hplain => exact hplain (.inl (List.cons.inj heq).1)

theorem value?_quoted (depth : Nat) (h : name.Printed) (hrest : rest.head? ≠ some '"') :
    value? depth (quoted name ++ rest) = some (.string name, rest) := by
  have hstring := string?_quoted h hrest
  rw [quoted, List.cons_append] at hstring ⊢
  rw [value?.eq_def]
  simp only [true_or, if_true, hstring, Option.map_some]

/-! #### Lists -/

theorem skipLines_of_ne {c : Char} (hgap : isGap c = false)
    (hbegins : c ≠ '#' ∧ c ≠ '\n' ∧ c ≠ '\r') (rest : Text) :
    skipLines (c :: rest) = c :: rest := by
  have hcomment : skipComment (c :: rest) = c :: rest := by
    unfold skipComment
    split
    · next heq => exact absurd (List.cons.inj heq).1 hbegins.1
    · rfl
  have hend : lineEnd? (c :: rest) = none := by
    unfold lineEnd?
    split
    · next heq => exact absurd (List.cons.inj heq).1 hbegins.2.1
    · next heq => exact absurd (List.cons.inj heq).1 hbegins.2.2
    · rfl
  rw [skipLines.eq_def]
  simp only [hgap, Bool.false_eq_true, if_false, hcomment, hend]

theorem skipLines_spaces (n : Nat) (t : Text) :
    skipLines (List.replicate n ' ' ++ t) = skipLines t := by
  induction n with
  | zero => rfl
  | succ n ih =>
      rw [List.replicate_succ, List.cons_append, skipLines.eq_def]
      exact ih

theorem skipLines_quoted (n : Nat) (name rest : Text) :
    skipLines (List.replicate n ' ' ++ (quoted name ++ rest)) = quoted name ++ rest := by
  rw [skipLines_spaces]
  exact skipLines_of_ne rfl (by decide) _

/-- An array goes on after an item with its end or with a comma. -/
theorem items_of_item {read : Text → Taken Node} {t : Text} {item : Node}
    (hstart : (skipLines t).head? ≠ some ']') (hread : read (skipLines t) = some (item, rest)) :
    items read t = match skipLines rest with
      | ']' :: more => some ([item], more)
      | ',' :: more =>
        if more.length < t.length then (items read more).map fun r => (item :: r.1, r.2) else none
      | _ => none := by
  rw [items.eq_def]
  split
  · next heq => exact absurd (congrArg List.head? heq) hstart
  · split
    · next heq =>
        rw [hread] at heq
        cases heq
    · next found after heq =>
        obtain ⟨rfl, rfl⟩ := Prod.mk.inj (Option.some.inj (hread.symm.trans heq))
        rfl

/-- The items of an array, from its first one on. -/
theorem items_quoted (depth n : Nat) (h : ∀ m ∈ name :: names, m.Printed) :
    items (value? depth)
        (List.replicate n ' ' ++ (quoted name ++ (others s names ++ ']' :: rest))) =
      some ((name :: names).map .string, rest) := by
  induction names generalizing name n with
  | nil =>
      have hvalue : value? depth (quoted name ++ ']' :: rest) = some (.string name, ']' :: rest) :=
        value?_quoted depth (h name (List.mem_cons_self ..)) (by simp)
      have hclose : skipLines (']' :: rest) = ']' :: rest := skipLines_of_ne rfl (by decide) rest
      rw [others, List.flatMap_nil, List.nil_append,
        items_of_item (by rw [skipLines_quoted]; simp [quoted]) (by rw [skipLines_quoted, hvalue]),
        hclose]
      rfl
  | cons second names ih =>
      obtain ⟨hname, hnames⟩ := List.forall_mem_cons.mp h
      have hothers : others s (second :: names) ++ ']' :: rest =
          ',' :: (List.replicate s.afterComma ' ' ++
            (quoted second ++ (others s names ++ ']' :: rest))) := by
        simp [others]
      have hitems := ih s.afterComma hnames
      rw [hothers]
      generalize List.replicate s.afterComma ' ' ++
        (quoted second ++ (others s names ++ ']' :: rest)) = more at hitems
      have hvalue : value? depth (quoted name ++ ',' :: more) = some (.string name, ',' :: more) :=
        value?_quoted depth hname (by simp)
      have hcomma : skipLines (',' :: more) = ',' :: more := skipLines_of_ne rfl (by decide) more
      have hlt : more.length <
          (List.replicate n ' ' ++ (quoted name ++ ',' :: more)).length := by
        simp only [List.length_append, List.length_cons]
        omega
      rw [items_of_item (by rw [skipLines_quoted]; simp [quoted])
        (by rw [skipLines_quoted, hvalue]), hcomma]
      simp only [hlt, if_true, hitems]
      rfl

theorem value?_bracketed (depth : Nat) (h : ∀ m ∈ names, m.Printed) :
    value? (depth + 1) (bracketed s names ++ rest) = some (.array (names.map .string), rest) := by
  have hitems : items (value? depth) ((bracketed s names).tail ++ rest) =
      some (names.map .string, rest) := by
    cases names with
    | nil =>
        have hclose : skipLines (']' :: rest) = ']' :: rest := skipLines_of_ne rfl (by decide) rest
        show items _ (']' :: rest) = _
        rw [items.eq_def, hclose]
        rfl
    | cons name names =>
        simpa [bracketed] using items_quoted depth 0 h
  have hopen : bracketed s names ++ rest = '[' :: ((bracketed s names).tail ++ rest) := by
    cases names <;> rfl
  rw [hopen, value?.eq_def]
  simp [hitems]

/-! #### The document -/

theorem lineTail?_ending (s : Spacing) : lineTail? (ending s) = some [] := by
  unfold ending
  split <;> rfl

theorem key?_listing (s : Spacing) (names : List Text) :
    key? (Format.toml.listing s names) =
      some ([keepKey], '=' :: ' ' :: (bracketed s names ++ ending s)) := by
  have hparts : keyParts (Format.toml.listing s names) =
      some ([keepKey], '=' :: ' ' :: (bracketed s names ++ ending s)) := by
    rw [keyParts]
    rfl
  rw [key?, hparts]
  rfl

theorem statement?_listing (h : ∀ name ∈ names, name.Printed) :
    statement? (Format.toml.listing s names) =
      some (.pair [keepKey] (.array (names.map .string)), []) := by
  have hgap : skipGap (' ' :: (bracketed s names ++ ending s)) = bracketed s names ++ ending s := by
    cases names <;> rfl
  have hvalue : value? depthLimit (skipGap (' ' :: (bracketed s names ++ ending s))) =
      some (.array (names.map .string), ending s) := by
    rw [hgap]
    exact value?_bracketed 78 h
  have hkey := key?_listing s names
  obtain ⟨more, hmore⟩ : ∃ more, Format.toml.listing s names = 'k' :: more := ⟨_, rfl⟩
  rw [hmore] at hkey ⊢
  unfold statement?
  simp only [hkey, hvalue, lineTail?_ending, Option.map_some]
  rfl

/-- The members of the table that a listing of names is in TOML. -/
theorem read?_listing (h : ∀ name ∈ names, name.Printed) :
    read? (Format.toml.listing s names) = some [(keepKey, .array (names.map .string))] := by
  have hstatement := statement?_listing (s := s) h
  have hmark : skipMark (Format.toml.listing s names) = Format.toml.listing s names := rfl
  have hstatements : statements? (Format.toml.listing s names) =
      some [.pair [keepKey] (.array (names.map .string))] := by
    have hend : statements? [] = some [] := by
      rw [statements?]
      rfl
    obtain ⟨more, hmore⟩ : ∃ more, Format.toml.listing s names = 'k' :: more := ⟨_, rfl⟩
    rw [hmore] at hstatement ⊢
    have hgap : skipGap ('k' :: more) = 'k' :: more := rfl
    rw [statements?, hgap]
    simp [hstatement, hend]
  simp only [read?, hmark, hstatements]
  rfl

theorem names?_listed (names : List Text) :
    Members.names? [(keepKey, .array (names.map .string))] = some names := by
  simp only [Members.names?, Members.get?, if_true, Node.texts?]
  exact mapM_map_eq_some (g := Node.string) (fun _ => rfl) names

end Toml

end BlockSieve
