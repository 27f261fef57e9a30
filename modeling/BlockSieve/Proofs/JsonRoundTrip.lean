import BlockSieve.Json.Printer
import BlockSieve.Json.Reader
import Mathlib.Data.List.Basic

/-!
A JSON document is read back as the value it was written from, whatever the
texts in it hold, as long as its strings are texts and its numbers are natural
numbers. A value is first written as tokens: the tokens of a printed value are
those of the value, however deep it stands, and from them the value is read.
-/

namespace BlockSieve.Json

namespace Token

/-! ### Strings -/

/-- A character is read as it was escaped. -/
theorem exists_unit_escape (c : Char) :
    ∃ unit, (∀ rest, stringBody (escape c ++ rest) =
        (stringBody rest).map fun r => (unit :: r.1, r.2)) ∧
      ∀ units, paired (unit :: units) = (paired units).map (c :: ·) := by
  unfold escape
  split
  · exact ⟨.char '"', fun _ => rfl, fun _ => rfl⟩
  · exact ⟨.char '\\', fun _ => rfl, fun _ => rfl⟩
  · exact ⟨.char '\x08', fun _ => rfl, fun _ => rfl⟩
  · exact ⟨.char '\x0c', fun _ => rfl, fun _ => rfl⟩
  · exact ⟨.char '\n', fun _ => rfl, fun _ => rfl⟩
  · exact ⟨.char '\r', fun _ => rfl, fun _ => rfl⟩
  · exact ⟨.char '\t', fun _ => rfl, fun _ => rfl⟩
  · next hquote hslash _ _ _ _ _ =>
      split
      · next hlow =>
          have hhex : ∀ n < 0x20,
              hex4? '0' '0' (hexDigit (n / 16)) (hexDigit (n % 16)) = some n := by
            decide
          refine ⟨.unit c.toNat, fun rest => ?_, fun units => ?_⟩
          · rw [List.cons_append, stringBody.eq_def]
            simp only [List.cons_append, List.nil_append, hhex c.toNat hlow]
          · have hhigh : ¬ (0xD800 ≤ c.toNat ∧ c.toNat < 0xDC00) := by omega
            have hpartner : ¬ (0xDC00 ≤ c.toNat ∧ c.toNat < 0xE000) := by omega
            rw [paired.eq_def]
            simp only [hhigh, hpartner, if_false, Char.ofNat_toNat]
      · next hhigh =>
          refine ⟨.char c, fun rest => ?_, fun _ => rfl⟩
          rw [List.singleton_append, stringBody.eq_def]
          split
          · next h => cases h
          · next h => exact absurd (List.cons.inj h).1 hquote
          · next h => exact absurd (List.cons.inj h).1 hslash
          · next h => exact absurd (List.cons.inj h).1 hslash
          · next h =>
              obtain ⟨rfl, rfl⟩ := List.cons.inj h
              rw [if_neg (not_or.mpr ⟨hhigh, hslash⟩)]

theorem exists_stringBody (t : Text) :
    ∃ units, (∀ rest, stringBody (t.flatMap escape ++ '"' :: rest) = some (units, rest)) ∧
      paired units = some t := by
  induction t with
  | nil => exact ⟨[], fun _ => rfl, rfl⟩
  | cons c t ih =>
      obtain ⟨units, hbody, hpaired⟩ := ih
      obtain ⟨unit, hescape, hunit⟩ := exists_unit_escape c
      refine ⟨unit :: units, fun rest => ?_, by rw [hunit, hpaired, Option.map_some]⟩
      rw [List.flatMap_cons, List.append_assoc, hescape, hbody, Option.map_some]

/-! ### Numbers -/

/-- No number goes on in the text: it is at its end, or a comma or a new line comes next. -/
def Ends (rest : Text) : Prop := ∀ c, rest.head? = some c → c = ',' ∨ c = '\n'

theorem ends_nil : Ends [] := fun _ h => by cases h

theorem ends_comma (rest : Text) : Ends (',' :: rest) := fun _ h => .inl (Option.some.inj h).symm

theorem ends_newline (rest : Text) : Ends ('\n' :: rest) :=
  fun _ h => .inr (Option.some.inj h).symm

theorem head_toDigits_ne_zero {n : Nat} (hn : n ≠ 0) : (Nat.toDigits 10 n).head? ≠ some '0' := by
  induction n using Nat.strongRecOn with
  | ind n ih =>
      rw [Nat.toDigits_eq_if (by decide)]
      split
      · simpa using hn
      · next hlarge =>
          have hhead := ih (n / 10) (by omega) (by omega)
          rwa [List.head?_append_of_ne_nil _ Nat.toDigits_ne_nil]

theorem someDigits?_toDigits (n : Nat) {rest : Text} (h : Ends rest) :
    someDigits? (Nat.toDigits 10 n ++ rest) = some (Nat.toDigits 10 n, rest) := by
  have hdigit : ∀ c ∈ Nat.toDigits 10 n, c.isDigit = true := fun c hc =>
    Nat.isDigit_of_mem_toDigits (by decide) (by decide) hc
  have hstop : ∀ c, rest.head? = some c → c.isDigit = false := fun c hc => by
    rcases h c hc with rfl | rfl <;> decide
  have hdigits : digits (Nat.toDigits 10 n ++ rest) = (Nat.toDigits 10 n, rest) := by
    unfold digits
    rw [List.takeWhile_append_of_pos hdigit, List.dropWhile_append_of_pos hdigit]
    cases rest with
    | nil => simp
    | cons c rest => simp [hstop c rfl]
  unfold someDigits?
  rw [hdigits]
  split
  · next hnil => exact absurd (Prod.mk.inj hnil).1 Nat.toDigits_ne_nil
  · rfl

theorem whole?_toDigits (n : Nat) {rest : Text} (h : Ends rest) :
    whole? (Nat.toDigits 10 n ++ rest) = some (Nat.toDigits 10 n, rest) := by
  by_cases hn : n = 0
  · subst hn
    cases rest with
    | nil => rfl
    | cons c rest =>
        have hstop : c.isDigit = false := by rcases h c rfl with rfl | rfl <;> decide
        show (if c.isDigit then none else some (['0'], c :: rest)) = _
        rw [hstop]
        rfl
  · rw [whole?.eq_def]
    split
    · next hzero =>
        have hhead := head_toDigits_ne_zero hn
        rw [← List.head?_append_of_ne_nil _ Nat.toDigits_ne_nil, hzero] at hhead
        exact absurd rfl hhead
    · exact someDigits?_toDigits n h

theorem unsigned?_toDigits (n : Nat) {rest : Text} (h : Ends rest) :
    unsigned? (Nat.toDigits 10 n ++ rest) = some (Nat.toDigits 10 n, rest) := by
  have hplaces : places? rest = some ([], rest) := by
    cases rest with
    | nil => rfl
    | cons c rest => rcases h c rfl with rfl | rfl <;> rfl
  have hexponent : exponent? rest = some ([], rest) := by
    cases rest with
    | nil => rfl
    | cons c rest => rcases h c rfl with rfl | rfl <;> rfl
  simp [unsigned?, whole?_toDigits n h, hplaces, hexponent]

/-! ### Tokens -/

theorem next?_of_isDigit {c : Char} (hc : c.isDigit = true) (rest : Text) :
    next? c rest = (unsigned? (c :: rest)).map fun r => (.number r.1, r.2) := by
  unfold next?
  split
  case h_12 => rw [if_pos hc]
  all_goals exact absurd hc (by decide)

theorem all?_nil : all? [] = some [] := by
  rw [all?.eq_def]

theorem all?_space {c : Char} (hc : isSpace c = true) (rest : Text) :
    all? (c :: rest) = all? rest := by
  rw [all?.eq_def]
  simp [hc]

theorem all?_next {c : Char} {rest rest' : Text} {token : Token} {tokens : List Token}
    (hc : isSpace c = false) (hnext : next? c rest = some (token, rest'))
    (hlength : rest'.length ≤ rest.length) (htokens : all? rest' = some tokens) :
    all? (c :: rest) = some (token :: tokens) := by
  rw [all?.eq_def]
  simp [hc, hnext, hlength, htokens]

theorem all?_spaces (n : Nat) (rest : Text) : all? (List.replicate n ' ' ++ rest) = all? rest := by
  induction n with
  | zero => rfl
  | succ n ih => rw [List.replicate_succ, List.cons_append, all?_space rfl, ih]

theorem all?_newline (depth : Nat) (rest : Text) : all? (newline depth ++ rest) = all? rest := by
  rw [newline, List.cons_append, all?_space rfl, all?_spaces]

theorem all?_quote (t : Text) {rest : Text} {tokens : List Token}
    (htokens : all? rest = some tokens) :
    all? (quote t ++ rest) = some (.string (some t) :: tokens) := by
  obtain ⟨units, hbody, hpaired⟩ := exists_stringBody t
  rw [quote, List.cons_append, List.cons_append, List.append_assoc, List.singleton_append]
  refine all?_next rfl ?_ (by simp; omega) htokens
  show (stringBody _).map _ = _
  rw [hbody, Option.map_some, hpaired]

theorem all?_nat (n : Nat) {rest : Text} {tokens : List Token} (hends : Ends rest)
    (htokens : all? rest = some tokens) :
    all? ((toString n).toList ++ rest) = some (.number (toString n).toList :: tokens) := by
  rw [Nat.toString_eq_repr, Nat.toList_repr]
  have hunsigned := unsigned?_toDigits n hends
  have hdigit : ∀ c ∈ Nat.toDigits 10 n, c.isDigit = true := fun c hc =>
    Nat.isDigit_of_mem_toDigits (by decide) (by decide) hc
  cases hdigits : Nat.toDigits 10 n with
  | nil => exact absurd hdigits Nat.toDigits_ne_nil
  | cons c more =>
      rw [hdigits] at hunsigned hdigit
      have hc := hdigit c (List.mem_cons_self ..)
      have hspace : isSpace c = false := by
        rw [Bool.eq_false_iff]
        intro hspace
        simp only [isSpace, Bool.or_eq_true, beq_iff_eq] at hspace
        rcases hspace with ((rfl | rfl) | rfl) | rfl <;> exact absurd hc (by decide)
      rw [List.cons_append]
      refine all?_next hspace ?_ (by simp) htokens
      rw [next?_of_isDigit hc, ← List.cons_append, hunsigned, Option.map_some]

theorem all?_member (t : Text) {rest : Text} {tokens : List Token}
    (htokens : all? rest = some tokens) :
    all? (quote t ++ ':' :: ' ' :: rest) = some (.string (some t) :: .colon :: tokens) := by
  refine all?_quote t (all?_next rfl rfl (Nat.le_refl _) ?_)
  rwa [all?_space rfl]

end Token

/-! ### Values -/

mutual

/-- The tokens of a value. -/
def Value.tokens : Value → List Token
  | .null => [.null]
  | .bool b => [.bool b]
  | .number n => [.number n]
  | .string s => [.string s]
  | .array [] => [.openArray, .closeArray]
  | .array (item :: items) => .openArray :: item.tokens ++ itemTokens items ++ [.closeArray]
  | .object [] => [.openObject, .closeObject]
  | .object ((key, value) :: members) =>
    .openObject :: .string key :: .colon :: value.tokens ++ memberTokens members ++ [.closeObject]

/-- The tokens of the items of an array after its first. -/
def itemTokens : List Value → List Token
  | [] => []
  | item :: items => .comma :: item.tokens ++ itemTokens items

/-- The tokens of the members of an object after its first. -/
def memberTokens : List (Written × Value) → List Token
  | [] => []
  | (key, value) :: members =>
    .comma :: .string key :: .colon :: value.tokens ++ memberTokens members

end

/-- Values of which all strings are texts and all numbers are natural numbers. -/
inductive Value.Plain : Value → Prop
  | null : Plain .null
  | bool (b : Bool) : Plain (.bool b)
  | nat (n : Nat) : Plain (.nat n)
  | text (t : Text) : Plain (.text t)
  | array {items} (each : ∀ v ∈ items, Plain v) : Plain (.array items)
  | object {members} (keys : ∀ m ∈ members, ∃ t, m.1 = some t)
      (each : ∀ m ∈ members, Plain m.2) : Plain (.object members)

/-- The printed value is taken apart into the value's tokens, whatever tokens come after it. -/
def Value.Lexes (v : Value) : Prop :=
  ∀ depth rest tokens, Token.Ends rest → Token.all? rest = some tokens →
    Token.all? (pretty depth v ++ rest) = some (v.tokens ++ tokens)

theorem prettyItems_lexes {items : List Value} (each : ∀ v ∈ items, v.Lexes) (depth : Nat)
    {rest : Text} {tokens : List Token} (hends : Token.Ends rest)
    (htokens : Token.all? rest = some tokens) :
    Token.Ends (prettyItems depth items ++ rest) ∧
      Token.all? (prettyItems depth items ++ rest) = some (itemTokens items ++ tokens) := by
  induction items with
  | nil => exact ⟨hends, htokens⟩
  | cons item items ih =>
      obtain ⟨hitem, hitems⟩ := List.forall_mem_cons.mp each
      obtain ⟨hends', htokens'⟩ := ih hitems
      simp only [prettyItems, itemTokens, List.cons_append, List.append_assoc]
      refine ⟨Token.ends_comma _, Token.all?_next rfl rfl (Nat.le_refl _) ?_⟩
      rw [Token.all?_newline]
      exact hitem _ _ _ hends' htokens'

theorem prettyMembers_lexes {members : List (Written × Value)}
    (keys : ∀ m ∈ members, ∃ t, m.1 = some t) (each : ∀ m ∈ members, m.2.Lexes) (depth : Nat)
    {rest : Text} {tokens : List Token} (hends : Token.Ends rest)
    (htokens : Token.all? rest = some tokens) :
    Token.Ends (prettyMembers depth members ++ rest) ∧
      Token.all? (prettyMembers depth members ++ rest) =
        some (memberTokens members ++ tokens) := by
  induction members with
  | nil => exact ⟨hends, htokens⟩
  | cons member members ih =>
      obtain ⟨⟨t, hkey⟩, hkeys⟩ := List.forall_mem_cons.mp keys
      obtain ⟨hvalue, hvalues⟩ := List.forall_mem_cons.mp each
      obtain ⟨hends', htokens'⟩ := ih hkeys hvalues
      obtain ⟨key, value⟩ := member
      obtain rfl : key = some t := hkey
      simp only [prettyMembers, memberTokens, List.cons_append, List.append_assoc]
      refine ⟨Token.ends_comma _, Token.all?_next rfl rfl (Nat.le_refl _) ?_⟩
      rw [Token.all?_newline]
      exact Token.all?_member t (hvalue _ _ _ hends' htokens')

/-- A plain value is printed as its tokens. -/
theorem Value.Plain.lexes {v : Value} (h : v.Plain) : v.Lexes := by
  induction h with
  | null => exact fun _ rest _ _ htokens => Token.all?_next rfl rfl (by simp; omega) htokens
  | bool b =>
      intro depth rest tokens hends htokens
      cases b with
      | true => exact Token.all?_next rfl rfl (by simp; omega) htokens
      | false => exact Token.all?_next rfl rfl (by simp; omega) htokens
  | nat n => exact fun _ _ _ hends htokens => Token.all?_nat n hends htokens
  | text t => exact fun _ _ _ _ htokens => Token.all?_quote t htokens
  | @array items _ ih =>
      intro depth rest tokens hends htokens
      have hclose : Token.all? (']' :: rest) = some (.closeArray :: tokens) :=
        Token.all?_next rfl rfl (Nat.le_refl _) htokens
      cases items with
      | nil => exact Token.all?_next rfl rfl (Nat.le_refl _) hclose
      | cons item items =>
          obtain ⟨hitem, hitems⟩ := List.forall_mem_cons.mp ih
          rw [← Token.all?_newline depth] at hclose
          obtain ⟨hends', htokens'⟩ :=
            prettyItems_lexes hitems (depth + 1) (Token.ends_newline _) hclose
          simp only [pretty, Value.tokens, List.cons_append, List.nil_append, List.append_assoc]
          refine Token.all?_next rfl rfl (Nat.le_refl _) ?_
          rw [Token.all?_newline]
          exact hitem _ _ _ hends' htokens'
  | @object members keys _ ih =>
      intro depth rest tokens hends htokens
      have hclose : Token.all? ('\x7d' :: rest) = some (.closeObject :: tokens) :=
        Token.all?_next rfl rfl (Nat.le_refl _) htokens
      cases members with
      | nil => exact Token.all?_next rfl rfl (Nat.le_refl _) hclose
      | cons member members =>
          obtain ⟨⟨t, hkey⟩, hkeys⟩ := List.forall_mem_cons.mp keys
          obtain ⟨hvalue, hvalues⟩ := List.forall_mem_cons.mp ih
          obtain ⟨key, value⟩ := member
          obtain rfl : key = some t := hkey
          rw [← Token.all?_newline depth] at hclose
          obtain ⟨hends', htokens'⟩ :=
            prettyMembers_lexes hkeys hvalues (depth + 1) (Token.ends_newline _) hclose
          simp only [pretty, Value.tokens, List.cons_append, List.nil_append, List.append_assoc]
          refine Token.all?_next rfl rfl (Nat.le_refl _) ?_
          rw [Token.all?_newline]
          exact Token.all?_member t (hvalue _ _ _ hends' htokens')

/-! ### Reading -/

/-- The value is read from its tokens, whatever is open around it and whatever tokens come after
it. -/
def Value.Reads (v : Value) : Prop :=
  ∀ frames tokens, readFrom .item frames (v.tokens ++ tokens) = readFrom (.after v) frames tokens

theorem Value.readFrom_itemOrClose (v : Value) (frames : List Frame) (tokens : List Token) :
    readFrom .itemOrClose frames (v.tokens ++ tokens) =
      readFrom .item frames (v.tokens ++ tokens) := by
  cases v with
  | array items => cases items <;> simp [Value.tokens, readFrom]
  | object members => cases members <;> simp [Value.tokens, readFrom]
  | _ => simp [Value.tokens, readFrom]

theorem readFrom_itemTokens {items : List Value} (each : ∀ v ∈ items, v.Reads)
    (before : List Value) (v : Value) (frames : List Frame) (tokens : List Token) :
    readFrom (.after v) (.array before :: frames)
        (itemTokens items ++ .closeArray :: tokens) =
      readFrom (.after (.array (before.reverse ++ v :: items))) frames tokens := by
  induction items generalizing before v with
  | nil => simp [itemTokens, readFrom]
  | cons item items ih =>
      obtain ⟨hitem, hitems⟩ := List.forall_mem_cons.mp each
      simp only [itemTokens, List.cons_append, List.append_assoc, readFrom]
      rw [hitem, ih hitems]
      simp

theorem readFrom_memberTokens {members : List (Written × Value)} (each : ∀ m ∈ members, m.2.Reads)
    (before : List (Written × Value)) (key : Written) (v : Value) (frames : List Frame)
    (tokens : List Token) :
    readFrom (.after v) (.object before key :: frames)
        (memberTokens members ++ .closeObject :: tokens) =
      readFrom (.after (.object (before.reverse ++ (key, v) :: members))) frames tokens := by
  induction members generalizing before key v with
  | nil => simp [memberTokens, readFrom]
  | cons member members ih =>
      obtain ⟨hvalue, hvalues⟩ := List.forall_mem_cons.mp each
      simp only [memberTokens, List.cons_append, List.append_assoc, readFrom]
      rw [hvalue, ih hvalues]
      simp

theorem Value.Plain.reads {v : Value} (h : v.Plain) : v.Reads := by
  induction h with
  | null | bool => exact fun _ _ => by simp [Value.tokens, readFrom, readFrom.readItem]
  | nat => exact fun _ _ => by simp [Value.nat, Value.tokens, readFrom, readFrom.readItem]
  | text => exact fun _ _ => by simp [Value.text, Value.tokens, readFrom, readFrom.readItem]
  | @array items _ ih =>
      intro frames tokens
      cases items with
      | nil => simp [Value.tokens, readFrom, readFrom.readItem]
      | cons item items =>
          obtain ⟨hitem, hitems⟩ := List.forall_mem_cons.mp ih
          simp only [Value.tokens, List.cons_append, List.append_assoc, readFrom,
            readFrom.readItem]
          rw [item.readFrom_itemOrClose, hitem]
          exact readFrom_itemTokens hitems [] item frames tokens
  | @object members _ _ ih =>
      intro frames tokens
      cases members with
      | nil => simp [Value.tokens, readFrom, readFrom.readItem]
      | cons member members =>
          obtain ⟨hvalue, hvalues⟩ := List.forall_mem_cons.mp ih
          simp only [Value.tokens, List.cons_append, List.append_assoc, readFrom,
            readFrom.readItem]
          rw [hvalue]
          exact readFrom_memberTokens hvalues [] _ _ frames tokens

/-- **A plain value is read back from its document**, with only space after it. -/
theorem Value.Plain.read?_print {v : Value} (h : v.Plain) {rest : Text} (hends : Token.Ends rest)
    (hrest : Token.all? rest = some []) : read? (print v ++ rest) = some v := by
  have htokens : Token.all? (print v ++ rest) = some (v.tokens ++ []) :=
    h.lexes 0 rest [] hends hrest
  have hread : readFrom .item [] (v.tokens ++ []) = some v := by
    rw [h.reads, readFrom]
  simp only [read?, htokens, Option.bind_eq_bind, Option.bind_some, hread]

end BlockSieve.Json
