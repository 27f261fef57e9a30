import BlockSieve.AllowList.Document
import BlockSieve.Proofs.QuotedScalar

/-!
A listing of names in YAML is read back as it was written. Its key is a plain
scalar that a colon turns into a key, which opens a block mapping; the list
stands in brackets, where line and column carry no meaning, so each comma and
each name comes out as one token. From the tokens the document is read like
any other.
-/

namespace BlockSieve

open Listing

namespace Yaml

variable {spacing : Spacing} {name rest : Text} {names : List Text}

/-! ### Reading on -/

namespace Layout

/-- A layout goes on after the token that comes next. -/
theorem readAll?_of_token {s ready next : Layout} {ch : Char} (hready : s.atToken? = some ready)
    (hrest : ready.cursor.rest = ch :: rest) (hnext : ready.token? ch rest = some next)
    (hlt : next.cursor.rest.length < s.cursor.rest.length) : s.readAll? = next.readAll? := by
  rw [readAll?]
  simp only [hready, hrest, hnext, hlt, if_true]

/-- Where a token follows spaces, it is the next one. -/
theorem toToken_spaces (n : Nat) (flow allowed : Bool) {c : Cursor} {ch : Char}
    (hc : c.rest = List.replicate n ' ' ++ ch :: rest) (hdark : Dark ch) (hsign : ch ≠ '#') :
    toToken flow allowed c = (c.skip n, allowed) := by
  obtain ⟨hspace, htab⟩ : ch ≠ ' ' ∧ ch ≠ '\t' := by simpa [isGap] using hdark.1
  have htake : c.rest.takeWhile (fun ch => ch == ' ' || ((flow || !allowed) && ch == '\t')) =
      List.replicate n ' ' := by
    rw [hc, List.takeWhile_append_of_pos (by simp)]
    simp [hspace, htab]
  have hrest : (c.skip n).rest = ch :: rest := by
    have hskip := Cursor.rest_skip_append hc
    rwa [List.length_replicate] at hskip
  have hbreak := Cursor.break?_eq_none hrest hdark.2
  have hcomment : beginsWith ['#'] (c.skip n).rest = false := by
    rw [hrest]
    simp [beginsWith, hsign]
  rw [toToken.eq_def]
  simp only [Cursor.skipWhile, htake, List.length_replicate, hcomment, Bool.false_eq_true, if_false,
    hbreak]

theorem atToken?_spaces {s : Layout} (n : Nat) {ch : Char}
    (hrest : s.cursor.rest = List.replicate n ' ' ++ ch :: rest) (hdark : Dark ch)
    (hsign : ch ≠ '#') : s.atToken? = ({ s with cursor := s.cursor.skip n } : Layout).expire?.map
      (closeBlocks ((s.cursor.skip n).column + 1)) := by
  rw [atToken?, toToken_spaces n s.flow s.keyAllowed hrest hdark hsign]
  exact (Option.map_eq_bind ..).symm

/-- A layout in brackets at the top, where nothing that was begun has to be a key. -/
structure InBrackets (s : Layout) : Prop where
  outer : s.outer = [none]
  optional : ∀ k, s.candidate = some k → k.required = false
  column : s.cursor.column ≠ 0

variable {s s' : Layout} {ch : Char}

theorem InBrackets.flow (h : s.InBrackets) : s.flow = true := by
  simp [Layout.flow, h.outer]

theorem InBrackets.giveUp? (h : s.InBrackets) : s.giveUp? = some { s with candidate := none } := by
  unfold Layout.giveUp?
  split
  · next hnone => rw [← hnone]
  · next k hk =>
      rw [h.optional k hk]
      rfl

theorem InBrackets.expire? (h : s.InBrackets) : ∃ candidate,
    (∀ k, candidate = some k → k.required = false) ∧
      s.expire? = some { s with candidate := candidate } := by
  refine ⟨if s.candidate.any (·.expired s.cursor) then none else s.candidate, fun k hk => ?_, ?_⟩
  · split at hk
    · cases hk
    · exact h.optional k hk
  · have hrequired : s.candidate.any (·.required) = false := by
      cases hcandidate : s.candidate with
      | none => rfl
      | some k => exact h.optional k hcandidate
    simp [Layout.expire?, h.outer, hrequired]

theorem InBrackets.atToken? (h : s.InBrackets) (n : Nat)
    (hrest : s.cursor.rest = List.replicate n ' ' ++ ch :: rest) (hdark : Dark ch)
    (hsign : ch ≠ '#') : ∃ candidate, (∀ k, candidate = some k → k.required = false) ∧
      s.atToken? = some { s with cursor := s.cursor.skip n, candidate := candidate } := by
  have hmoved : ({ s with cursor := s.cursor.skip n } : Layout).InBrackets :=
    ⟨h.outer, h.optional, by simp [h.column]⟩
  obtain ⟨candidate, hoptional, hexpire⟩ := hmoved.expire?
  refine ⟨candidate, hoptional, ?_⟩
  rw [atToken?_spaces n hrest hdark hsign, hexpire]
  simp [closeBlocks, Layout.flow, h.outer]

/-- Reading on from one layout comes to another, with some tokens read on the way. -/
structure Reads (s : Layout) (read : List Token) (s' : Layout) : Prop where
  onward : s.readAll? = s'.readAll?
  tokens : s'.tokens = read.reverse ++ s.tokens
  columns : s'.columns = s.columns

theorem Reads.trans {s'' : Layout} {xs ys : List Token} (h : s.Reads xs s')
    (h' : s'.Reads ys s'') : s.Reads (xs ++ ys) s'' :=
  ⟨h.onward.trans h'.onward, by rw [h'.tokens, h.tokens]; simp, h'.columns.trans h.columns⟩

theorem token?_quote (h : s.cursor.column ≠ 0) : s.token? '"' rest = s.quotedScalar? '"' := by
  simp [token?, Cursor.marked, h]

theorem token?_comma (h : s.cursor.column ≠ 0) : s.token? ',' rest = s.comma? := by
  simp [token?, Cursor.marked, h]

theorem token?_closeBracket (h : s.cursor.column ≠ 0) :
    s.token? ']' rest = s.closeFlow? .closeBracket := by
  simp [token?, Cursor.marked, h]

theorem InBrackets.remember? (h : s.InBrackets) (hallowed : s.keyAllowed = true) :
    ∃ k, k.required = false ∧
      s.remember? = some { s with candidate := some k, keyAllowed := false } := by
  refine ⟨⟨s.tokens.length, s.cursor.index, s.cursor.line, s.cursor.column,
    !s.flow && s.columns.head? == some s.cursor.column⟩, by simp [h.flow], ?_⟩
  simp only [Layout.remember?, hallowed, if_true, h.giveUp?]
  rfl

/-- A quoted name in brackets is the next token. -/
theorem InBrackets.reads_quoted (h : s.InBrackets) (hallowed : s.keyAllowed = true) (n : Nat)
    (hname : name.Printed) (hrest : s.cursor.rest = List.replicate n ' ' ++ (quoted name ++ rest)) :
    ∃ s', s.Reads [.scalar false name] s' ∧ s'.InBrackets ∧ s'.cursor.rest = rest := by
  obtain ⟨candidate, hoptional, hready⟩ := h.atToken? n hrest dark_quote (by decide)
  have hskip : (s.cursor.skip n).rest = quoted name ++ rest := by
    have hskip := Cursor.rest_skip_append hrest
    rwa [List.length_replicate] at hskip
  have hafter := Cursor.rest_skip_append hskip
  have hcolumn : (s.cursor.skip n).column ≠ 0 := by simp [h.column]
  generalize s.cursor.skip n = c at hready hskip hafter hcolumn
  have hbrackets : ({ s with cursor := c, candidate := candidate } : Layout).InBrackets :=
    ⟨h.outer, hoptional, hcolumn⟩
  obtain ⟨k, hk, hremember⟩ := hbrackets.remember? hallowed
  have hnext : ({ s with cursor := c, candidate := candidate } : Layout).token? '"'
      (name.flatMap escape ++ '"' :: rest) =
        some { s with
          cursor := c.skip (quoted name).length, candidate := some k, keyAllowed := false
          tokens := .scalar false name :: s.tokens } := by
    rw [token?_quote hcolumn, quotedScalar?, hremember]
    simp [quoted?_quoted hname hskip, emit]
  have hquote : c.rest = '"' :: (name.flatMap escape ++ '"' :: rest) := by simp [hskip, quoted]
  refine ⟨_, ⟨readAll?_of_token hready hquote hnext ?_, rfl, rfl⟩, ⟨h.outer, ?_, ?_⟩, hafter⟩
  · show (c.skip (quoted name).length).rest.length < _
    rw [hafter, hrest]
    simp [quoted]
    omega
  · rintro _ ⟨⟩
    exact hk
  · simp [hcolumn]

/-- A comma in brackets is the next token, and a name may follow it. -/
theorem InBrackets.reads_comma (h : s.InBrackets) (hrest : s.cursor.rest = ',' :: rest) :
    ∃ s', s.Reads [.comma] s' ∧ s'.InBrackets ∧ s'.keyAllowed = true ∧ s'.cursor.rest = rest := by
  obtain ⟨candidate, hoptional, hready⟩ := h.atToken? 0 hrest ⟨rfl, rfl⟩ (by decide)
  rw [Cursor.skip_zero] at hready
  have hbrackets : ({ s with candidate := candidate } : Layout).InBrackets :=
    ⟨h.outer, hoptional, h.column⟩
  have hnext : ({ s with candidate := candidate } : Layout).token? ',' rest =
      some { s with
        cursor := s.cursor.skip 1, candidate := none, keyAllowed := true
        tokens := .comma :: s.tokens } := by
    rw [token?_comma hbrackets.column, comma?, hbrackets.giveUp?]
    rfl
  refine ⟨_, ⟨readAll?_of_token hready hrest hnext ?_, rfl, rfl⟩, ⟨h.outer, ?_, ?_⟩, rfl, ?_⟩
  · simp [hrest]
  · rintro _ ⟨⟩
  · simp
  · simp [hrest]

/-- The bracket that closes is the next token, and then no collection in brackets is open. -/
theorem InBrackets.reads_closeBracket (h : s.InBrackets) (hrest : s.cursor.rest = ']' :: rest) :
    ∃ s', s.Reads [.closeBracket] s' ∧ s'.outer = [] ∧ s'.candidate = none ∧
      s'.keyAllowed = false ∧ s'.cursor.rest = rest := by
  obtain ⟨candidate, hoptional, hready⟩ := h.atToken? 0 hrest ⟨rfl, rfl⟩ (by decide)
  rw [Cursor.skip_zero] at hready
  have hbrackets : ({ s with candidate := candidate } : Layout).InBrackets :=
    ⟨h.outer, hoptional, h.column⟩
  have hnext : ({ s with candidate := candidate } : Layout).token? ']' rest =
      some { s with
        cursor := s.cursor.skip 1, candidate := none, outer := [], keyAllowed := false
        tokens := .closeBracket :: s.tokens } := by
    rw [token?_closeBracket hbrackets.column, closeFlow?, hbrackets.giveUp?]
    simp [h.outer, emitSign, emit]
  refine ⟨_, ⟨readAll?_of_token hready hrest hnext ?_, rfl, rfl⟩, rfl, rfl, rfl, ?_⟩
  · simp [hrest]
  · simp [hrest]

/-- The tokens of the names after the first. -/
def otherTokens (names : List Text) : List Token :=
  names.flatMap fun name => [.comma, .scalar false name]

/-- The tokens of a list in brackets, after the one that opens it. -/
def itemTokens : List Text → List Token
  | [] => [.closeBracket]
  | name :: names => .scalar false name :: (otherTokens names ++ [.closeBracket])

/-- The names after the first are read one after the other. -/
theorem InBrackets.reads_others (h : s.InBrackets) (hnames : ∀ name ∈ names, name.Printed)
    (hrest : s.cursor.rest = others spacing names ++ rest) :
    ∃ s', s.Reads (otherTokens names) s' ∧ s'.InBrackets ∧ s'.cursor.rest = rest := by
  induction names generalizing s with
  | nil => exact ⟨s, ⟨rfl, rfl, rfl⟩, h, hrest⟩
  | cons name names ih =>
      obtain ⟨hname, hnames⟩ := List.forall_mem_cons.mp hnames
      have hcomma : s.cursor.rest = ',' :: (List.replicate spacing.afterComma ' ' ++
          (quoted name ++ (others spacing names ++ rest))) := by
        simp [hrest, others]
      obtain ⟨s₁, hreads₁, h₁, hallowed, hrest₁⟩ := h.reads_comma hcomma
      obtain ⟨s₂, hreads₂, h₂, hrest₂⟩ := h₁.reads_quoted hallowed _ hname hrest₁
      obtain ⟨s₃, hreads₃, h₃, hrest₃⟩ := ih h₂ hnames hrest₂
      exact ⟨s₃, (hreads₁.trans hreads₂).trans hreads₃, h₃, hrest₃⟩

/-- A list is read from the bracket that opens it to the one that closes it. -/
theorem InBrackets.reads_items (h : s.InBrackets) (hallowed : s.keyAllowed = true)
    (hnames : ∀ name ∈ names, name.Printed)
    (hrest : '[' :: s.cursor.rest = bracketed spacing names ++ rest) :
    ∃ s', s.Reads (itemTokens names) s' ∧ s'.outer = [] ∧ s'.candidate = none ∧
      s'.keyAllowed = false ∧ s'.cursor.rest = rest := by
  cases names with
  | nil => exact h.reads_closeBracket (List.cons.inj hrest).2
  | cons name names =>
      obtain ⟨hname, hnames⟩ := List.forall_mem_cons.mp hnames
      have hquoted : s.cursor.rest = List.replicate 0 ' ' ++
          (quoted name ++ (others spacing names ++ ']' :: rest)) := by
        simpa [bracketed] using hrest
      obtain ⟨s₁, hreads₁, h₁, hrest₁⟩ := h.reads_quoted hallowed 0 hname hquoted
      obtain ⟨s₂, hreads₂, h₂, hrest₂⟩ := h₁.reads_others hnames hrest₁
      obtain ⟨s₃, hreads₃, hclosed⟩ := h₂.reads_closeBracket hrest₂
      exact ⟨s₃, (hreads₁.trans (hreads₂.trans hreads₃)), hclosed⟩

/-! #### The whole document -/

theorem plain?_keep (rest : Text) : plain? false 0 ⟨"keep: ".toList ++ rest, 0, 0, 0⟩ =
    some (("keep".toList, false), ⟨':' :: ' ' :: rest, 4, 0, 4⟩) := by
  have hword : plainWord false ⟨"keep: ".toList ++ rest, 0, 0, 0⟩ =
      some ('k' :: "eep".toList, ⟨':' :: ' ' :: rest, 4, 0, 4⟩) := by
    simp [plainWord, Cursor.skip, Found.prepend, isGap, isBreak, edge]
  have hcolon : plainWord false ⟨':' :: ' ' :: rest, 4, 0, 4⟩ =
      some ([], ⟨':' :: ' ' :: rest, 4, 0, 4⟩) := by
    simp [plainWord, isGap, isBreak, edge]
  have hgap : gap? 0 .none ⟨':' :: ' ' :: rest, 4, 0, 4⟩ =
      some (.none, ⟨':' :: ' ' :: rest, 4, 0, 4⟩) :=
    gap?_spaces 0 rfl rfl ⟨rfl, rfl⟩
  have hend : plainBody false 0 .none ⟨':' :: ' ' :: rest, 4, 0, 4⟩ =
      some (([], false), ⟨':' :: ' ' :: rest, 4, 0, 4⟩) := by
    rw [plainBody, hcolon]
    simp [Cursor.atDocumentMark, Cursor.marked, beginsWith, Gap.none]
  have hmark : (Cursor.mk ("keep: ".toList ++ rest) 0 0 0).atDocumentMark = false := rfl
  have hcomment : beginsWith ['#'] ("keep: ".toList ++ rest) = false := rfl
  have hlt : (':' :: ' ' :: rest).length < ("keep: ".toList ++ rest).length := by simp
  rw [plain?, plainBody, hword]
  simp only [hmark, hcomment, hgap, hend, hlt, Bool.or_self, Bool.false_eq_true, if_false, if_true]
  rfl

/-- A document after its key, which is still a plain scalar like any other. -/
def keyed (rest : Text) : Layout where
  cursor := ⟨':' :: ' ' :: rest, 4, 0, 4⟩
  tokens := [.scalar true keepKey]
  columns := []
  candidate := some ⟨0, 0, 0, 0, false⟩
  outer := []
  keyAllowed := false

/-- A document after the colon behind its key, which opens a mapping. -/
def valued (rest : Text) : Layout where
  cursor := ⟨' ' :: rest, 5, 0, 5⟩
  tokens := [.value, .scalar true keepKey, .key, .blockMapping]
  columns := [0]
  candidate := none
  outer := []
  keyAllowed := false

/-- A document after the bracket that opens the list. -/
def opened (rest : Text) : Layout where
  cursor := ⟨rest, 7, 0, 7⟩
  tokens := [.openBracket, .value, .scalar true keepKey, .key, .blockMapping]
  columns := [0]
  candidate := none
  outer := [none]
  keyAllowed := true

theorem start_reads_keyed (rest : Text) :
    (start ("keep: ".toList ++ rest)).readAll? = (keyed rest).readAll? := by
  have hready : (start ("keep: ".toList ++ rest)).atToken? =
      some (start ("keep: ".toList ++ rest)) :=
    atToken?_spaces 0 rfl ⟨rfl, rfl⟩ (by decide)
  have hnext : (start ("keep: ".toList ++ rest)).token? 'k' ("eep: ".toList ++ rest) =
      some (keyed rest) := by
    have hplain : (start ("keep: ".toList ++ rest)).token? 'k' ("eep: ".toList ++ rest) =
        (start ("keep: ".toList ++ rest)).plainScalar? := rfl
    have hremember : (start ("keep: ".toList ++ rest)).remember? =
        some { start ("keep: ".toList ++ rest) with
          candidate := some ⟨0, 0, 0, 0, false⟩, keyAllowed := false } := rfl
    rw [hplain, plainScalar?, hremember]
    exact congrArg (Option.bind · _) (plain?_keep rest)
  exact readAll?_of_token hready rfl hnext (by simp [keyed, start, Cursor.ofText])

theorem keyed_reads_valued (rest : Text) : (keyed rest).readAll? = (valued rest).readAll? := by
  have hready : (keyed rest).atToken? = some (keyed rest) :=
    atToken?_spaces 0 rfl ⟨rfl, rfl⟩ (by decide)
  have hnext : (keyed rest).token? ':' (' ' :: rest) = some (valued rest) := rfl
  exact readAll?_of_token hready rfl hnext (by simp [keyed, valued])

theorem valued_reads_opened (rest : Text) :
    (valued ('[' :: rest)).readAll? = (opened rest).readAll? := by
  let ready : Layout := { valued ('[' :: rest) with cursor := ⟨'[' :: rest, 6, 0, 6⟩ }
  have hready : (valued ('[' :: rest)).atToken? = some ready :=
    atToken?_spaces 1 rfl ⟨rfl, rfl⟩ (by decide)
  have hnext : ready.token? '[' rest = some (opened rest) := rfl
  refine readAll?_of_token hready rfl hnext ?_
  simp only [valued, opened, List.length_cons]
  omega

/-- The key is read up to the bracket behind it. -/
theorem start_reads_opened (rest : Text) :
    (start ("keep: ".toList ++ '[' :: rest)).readAll? = (opened rest).readAll? := by
  rw [start_reads_keyed, keyed_reads_valued, valued_reads_opened]

theorem inBrackets_opened (rest : Text) : (opened rest).InBrackets where
  outer := rfl
  optional := fun _ hk => nomatch hk
  column := Nat.succ_ne_zero 6

/-- The end of a document closes the mapping. -/
theorem readAll?_ending (houter : s.outer = []) (hcandidate : s.candidate = none)
    (hallowed : s.keyAllowed = false) (hcolumns : s.columns = [0])
    (hrest : s.cursor.rest = ending spacing) :
    s.readAll?.map (·.tokens) = some (.blockEnd :: s.tokens) := by
  obtain ⟨⟨_, i, l, k⟩, tokens, _, _, _, _⟩ := s
  obtain ⟨rfl, rfl, rfl, rfl, rfl⟩ : _ ∧ _ ∧ _ ∧ _ ∧ _ :=
    ⟨houter, hcandidate, hallowed, hcolumns, hrest⟩
  -- the place after the newline is at the beginning of a line, and a key may begin there
  have hmoved : ∃ c : Cursor, ∃ allowed, c.rest = [] ∧
      toToken false false ⟨ending spacing, i, l, k⟩ = (c, allowed) := by
    unfold ending
    split
    · refine ⟨⟨[], i + 1, l + 1, 0⟩, true, rfl, ?_⟩
      rw [toToken.eq_def]
      have hat : toToken false true ⟨[], i + 1, l + 1, 0⟩ = (⟨[], i + 1, l + 1, 0⟩, true) := by
        rw [toToken.eq_def]
        rfl
      exact hat
    · refine ⟨⟨[], i, l, k⟩, false, rfl, ?_⟩
      rw [toToken.eq_def]
      rfl
  obtain ⟨c, allowed, hc, htoToken⟩ := hmoved
  have hready : (⟨⟨ending spacing, i, l, k⟩, tokens, [0], none, [], false⟩ : Layout).atToken? =
      some ⟨c, tokens, [0], none, [], allowed⟩ := by
    have hflow :
        (⟨⟨ending spacing, i, l, k⟩, tokens, [0], none, [], false⟩ : Layout).flow = false := rfl
    rw [atToken?, hflow, htoToken]
    simp [expire?, closeBlocks, flow]
  rw [readAll?]
  simp only [hready, hc]
  simp [closeBlocks, flow, giveUp?]

end Layout

theorem all_isPrintable_listing (h : ∀ name ∈ names, name.Printed) :
    (Format.yaml.listing spacing names).all isPrintable = true := by
  have hlist : (bracketed spacing names).all isPrintable = true :=
    List.all_eq_true.mpr fun c hc => by simp [isPrintable, printed_bracketed h c hc]
  have hkey : "keep: ".toList.all isPrintable = true := rfl
  have hend : (ending spacing).all isPrintable = true := by
    unfold ending
    split <;> rfl
  have hlisting : Format.yaml.listing spacing names =
      "keep: ".toList ++ (bracketed spacing names ++ ending spacing) := rfl
  rw [hlisting, List.all_append, List.all_append, hkey, hlist, hend]
  rfl

theorem tokens?_listing (h : ∀ name ∈ names, name.Printed) :
    tokens? (Format.yaml.listing spacing names) =
      some (.blockMapping :: .key :: .scalar true keepKey :: .value :: .openBracket ::
        (Layout.itemTokens names ++ [.blockEnd])) := by
  obtain ⟨items, hitems⟩ : ∃ items, bracketed spacing names ++ ending spacing = '[' :: items := by
    cases names <;> exact ⟨_, rfl⟩
  have hopened := Layout.inBrackets_opened items
  have hbracketed : '[' :: (Layout.opened items).cursor.rest =
      bracketed spacing names ++ ending spacing := hitems.symm
  obtain ⟨s, hreads, houter, hcandidate, hallowed, hrest⟩ := hopened.reads_items rfl h hbracketed
  have hend := Layout.readAll?_ending houter hcandidate hallowed hreads.columns hrest
  have hlisting : Format.yaml.listing spacing names = "keep: ".toList ++ '[' :: items :=
    congrArg ("keep: ".toList ++ ·) hitems
  rw [hreads.tokens] at hend
  have htokens := congrArg (Option.map List.reverse) hend
  rw [Option.map_map] at htokens
  rw [tokens?, if_pos (all_isPrintable_listing h), hlisting, Layout.start_reads_opened,
    hreads.onward]
  refine htokens.trans ?_
  simp [Layout.opened]

/-! ### What is read -/

theorem item?_scalar (plain : Bool) (t : Text) (rest : List Token) :
    item? [] (.scalar plain t :: rest) = some (.scalar plain t, rest) := by
  simp [item?, node?, content?]

/-- The items of a list are read back from their tokens. -/
theorem items?_itemTokens (names : List Text) (rest : List Token) :
    items? [] (Layout.itemTokens names ++ rest) = some (names.map (.scalar false), rest) := by
  cases names with
  | nil =>
      rw [Layout.itemTokens, List.singleton_append, items?]
      rfl
  | cons name names =>
      induction names generalizing name with
      | nil =>
          simp [Layout.itemTokens, Layout.otherTokens, items?, item?_scalar]
      | cons second names ih =>
          have htokens : Layout.itemTokens (name :: second :: names) ++ rest =
              .scalar false name :: .comma :: (Layout.itemTokens (second :: names) ++ rest) := by
            simp [Layout.itemTokens, Layout.otherTokens]
          have hlt : (Layout.itemTokens (second :: names) ++ rest).length <
              (Token.scalar false name :: Token.comma ::
                (Layout.itemTokens (second :: names) ++ rest)).length := by
            simp only [List.length_cons]
            omega
          rw [htokens, items?.eq_def]
          simp only [item?_scalar, hlt, if_true, ih second]
          rfl

/-- The mapping that a listing of names is in YAML. -/
def listed {Label : Type} (names : List Text) : Node Label :=
  .mapping [(.scalar true keepKey, .sequence (names.map (.scalar false)))]

theorem numberedItems_scalars (numbers : Numbers) (names : List Text) :
    Node.numberedItems numbers (names.map (.scalar false)) =
      some (names.map (.scalar false), numbers) := by
  induction names with
  | nil => rfl
  | cons name names ih =>
      simp [Node.numberedItems, Node.numbered, ih]

theorem document?_listing (names : List Text) :
    document? (.blockMapping :: .key :: .scalar true keepKey :: .value :: .openBracket ::
      (Layout.itemTokens names ++ [.blockEnd])) = some (listed names) := by
  have hitems := items?_itemTokens names [.blockEnd]
  generalize hafter : Layout.itemTokens names ++ [.blockEnd] = after at hitems
  have hvalue : node? [] true true (.openBracket :: after) =
      some (.sequence (names.map (.scalar false)), [.blockEnd]) := by
    simp [node?, content?, hitems]
  have hpairs : blockPairs? [] (.key :: .scalar true keepKey :: .value :: .openBracket :: after) =
      some ([(.scalar true keepKey, .sequence (names.map (.scalar false)))], []) := by
    have hkey : node? [] true true (.scalar true keepKey :: .value :: .openBracket :: after) =
        some (.scalar true keepKey, .value :: .openBracket :: after) := by
      simp [node?, content?]
    simp [blockPairs?, blockNode?, blockValue?, leftOut, hkey, hvalue]
  simp [document?, beginsDocument, node?, content?, hpairs, listed]

theorem numbered_listed (names : List Text) :
    (listed names).numbered [] = some (listed names, []) := by
  simp [listed, Node.numbered, Node.numberedPairs, numberedItems_scalars]

theorem names?_listed (names : List Text) : (listed names).names? = some names := by
  have htexts : ∀ anchors,
      (names.map (Node.scalar false)).mapM (Node.text? anchors) = some names := fun _ =>
    mapM_map_eq_some (g := Node.scalar false) (fun _ => rfl) names
  simp [Node.names?, listed, Node.meant, Node.text?, Node.texts?, htexts, -List.mapM_map]

theorem read?_listing (h : ∀ name ∈ names, name.Printed) :
    read? (Format.yaml.listing spacing names) = some (listed names) := by
  simp [read?, tokens?_listing h, document?_listing, numbered_listed]

end Yaml

end BlockSieve
