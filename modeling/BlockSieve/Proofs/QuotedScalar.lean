import BlockSieve.Proofs.Listing
import BlockSieve.Yaml.Scalar
import Mathlib.Data.List.TakeWhile

/-!
Names between quotation marks in a YAML document. A quoted scalar is read word
by word, with the gaps between its words kept as they are while they stay in
one line; only a backslash and the quotation mark itself have to be escaped.
-/

namespace BlockSieve

open Listing

namespace Yaml

variable {name rest : Text}

namespace Cursor

@[simp] theorem rest_skip (n : Nat) (c : Cursor) : (c.skip n).rest = c.rest.drop n := rfl

@[simp] theorem column_skip (n : Nat) (c : Cursor) : (c.skip n).column = c.column + n := rfl

theorem skip_zero (c : Cursor) : c.skip 0 = c := rfl

theorem skip_skip (m n : Nat) (c : Cursor) : (c.skip m).skip n = c.skip (m + n) := by
  simp [skip, Nat.add_assoc, List.drop_drop]

theorem rest_skip_append {c : Cursor} {t : Text} (h : c.rest = t ++ rest) :
    (c.skip t.length).rest = rest := by
  simp [h]

theorem break?_eq_none {c : Cursor} {ch : Char} (h : c.rest = ch :: rest)
    (hbreak : isBreak ch = false) : c.break? = none := by
  unfold break?
  split
  · next heq =>
      obtain rfl := (List.cons.inj (h.symm.trans heq)).1
      exact absurd hbreak (by decide)
  · next heq =>
      obtain rfl := (List.cons.inj (h.symm.trans heq)).1
      have hseparators : (ch == '\u2028' || ch == '\u2029') = false := by
        unfold isBreak at hbreak
        simp_all
      simp [hseparators, hbreak]
  · rfl

theorem atDocumentMark_eq_false {c : Cursor} (h : c.column ≠ 0) : c.atDocumentMark = false := by
  simp [atDocumentMark, marked, h]

end Cursor

/-- Whether a character can stand in a word of a scalar. -/
def Dark (c : Char) : Prop := isGap c = false ∧ isBreak c = false

theorem dark_of_printed {c : Char} (h : 0x20 ≤ c.toNat ∧ c.toNat ≤ 0x7E) (hspace : c ≠ ' ') :
    Dark c := by
  have hne : ∀ d : Char, d.toNat < 0x20 ∨ 0x7E < d.toNat → c ≠ d := by
    rintro d hd rfl
    omega
  constructor
  · simp [isGap, hspace, hne '\t' (by decide)]
  · simp [isBreak, hne '\n' (by decide), hne '\r' (by decide), hne '\x85' (by decide),
      hne '\u2028' (by decide), hne '\u2029' (by decide)]

/-! ### Quoted scalars -/

section

variable {c : Cursor} {ch : Char}

theorem quotedWord_stop (hc : c.rest = ch :: rest) (hstop : ch = ' ' ∨ ch = '"') :
    quotedWord '"' c = some (([], false), c) := by
  obtain ⟨_, i, l, k⟩ := c
  obtain rfl : _ = ch :: rest := hc
  rw [quotedWord]
  rcases hstop with rfl | rfl <;> rfl

theorem quotedWord_plain (hc : c.rest = ch :: rest) (hdark : Dark ch) (hquote : ch ≠ '"')
    (hslash : ch ≠ '\\') : quotedWord '"' c =
      (quotedWord '"' (c.skip 1)).map fun r => ((ch :: r.1.1, r.1.2), r.2) := by
  obtain ⟨_, i, l, k⟩ := c
  obtain rfl : _ = ch :: rest := hc
  rw [quotedWord]
  simp [hdark.1, hdark.2, hquote, hslash]

theorem quotedWord_escape (hc : c.rest = '\\' :: ch :: rest) (hch : ch = '"' ∨ ch = '\\') :
    quotedWord '"' c =
      (quotedWord '"' (c.skip 2)).map fun r => ((ch :: r.1.1, r.1.2), r.2) := by
  obtain ⟨_, i, l, k⟩ := c
  obtain rfl : _ = '\\' :: ch :: rest := hc
  rw [quotedWord]
  rcases hch with rfl | rfl <;> rfl

end

/-- A word between quotation marks is read as it was escaped, up to what is not part of it. -/
theorem quotedWord_escaped (h : name.Printed) (hspace : ' ' ∉ name) {c : Cursor}
    (hc : c.rest = name.flatMap escape ++ rest)
    (hrest : rest.head? = some ' ' ∨ rest.head? = some '"') :
    quotedWord '"' c = some ((name, false), c.skip (name.flatMap escape).length) := by
  induction name generalizing c with
  | nil =>
      rcases rest with _ | ⟨ch, rest⟩
      · simp at hrest
      · exact quotedWord_stop hc (by simpa using hrest)
  | cons ch name ih =>
      obtain ⟨hch, hname⟩ := List.forall_mem_cons.mp h
      obtain ⟨hne, hspace⟩ := not_or.mp (mt List.mem_cons.mpr hspace)
      rw [List.flatMap_cons, List.append_assoc] at hc
      have hlater := ih hname hspace (c := c.skip (escape ch).length) (Cursor.rest_skip_append hc)
      have hskip : (c.skip (escape ch).length).skip (name.flatMap escape).length =
          c.skip ((ch :: name).flatMap escape).length := by
        rw [Cursor.skip_skip, List.flatMap_cons, List.length_append]
      by_cases hplain : ch ≠ '"' ∧ ch ≠ '\\'
      · rw [escape_of_plain hplain.1 hplain.2] at hc hlater hskip
        rw [quotedWord_plain hc (dark_of_printed hch (Ne.symm hne)) hplain.1 hplain.2, ← hskip]
        exact congrArg (Option.map _) hlater
      · have hwritten : escape ch = ['\\', ch] := if_pos (by tauto)
        rw [hwritten] at hc hlater hskip
        rw [quotedWord_escape hc (by tauto), ← hskip]
        exact congrArg (Option.map _) hlater

/-- Spaces between words are kept as they are. -/
theorem gap?_spaces (n : Nat) {g : Gap} (hg : g.broken = false) {c : Cursor} {ch : Char}
    (hc : c.rest = List.replicate n ' ' ++ ch :: rest) (hdark : Dark ch) :
    gap? 0 g c = some ({ g with blanks := g.blanks ++ List.replicate n ' ' }, c.skip n) := by
  induction n generalizing g c with
  | zero =>
      have hbreak := Cursor.break?_eq_none hc hdark.2
      obtain ⟨_, i, l, k⟩ := c
      obtain rfl : _ = ch :: rest := hc
      rw [gap?]
      split
      · next heq => rw [hbreak] at heq; cases heq
      · simp [hdark.1, Cursor.skip_zero]
  | succ n ih =>
      have hbreak := Cursor.break?_eq_none hc rfl
      have hlater := ih (g := g.blank ' ') (c := c.skip 1)
        (by simp [Gap.blank, hg]) (by simp [hc, List.replicate_succ])
      obtain ⟨_, i, l, k⟩ := c
      obtain rfl : _ = ' ' :: (List.replicate n ' ' ++ ch :: rest) := hc
      rw [gap?]
      split
      · next heq => rw [hbreak] at heq; cases heq
      · have hgap : isGap ' ' = true := rfl
        simp only [hgap, hg, Bool.false_eq_true, false_and, if_true, if_false, hlater]
        simp [Gap.blank, hg, Cursor.skip_skip, Nat.add_comm 1 n, List.replicate_succ]

theorem dark_quote : Dark '"' := ⟨rfl, rfl⟩

theorem dark_backslash : Dark '\\' := ⟨rfl, rfl⟩

theorem exists_dark_escaped (h : name.Printed) (hspace : name.head? ≠ some ' ') (rest : Text) :
    ∃ ch more, name.flatMap escape ++ '"' :: rest = ch :: more ∧ Dark ch := by
  cases name with
  | nil => exact ⟨'"', rest, rfl, dark_quote⟩
  | cons ch name =>
      rw [List.flatMap_cons, List.append_assoc]
      unfold escape
      split
      · exact ⟨'\\', _, rfl, dark_backslash⟩
      · refine ⟨ch, _, rfl, dark_of_printed (h ch (List.mem_cons_self ..)) ?_⟩
        exact fun heq => hspace (congrArg some heq)

/-- The word that a text begins with, the spaces after it, and what follows those. -/
theorem exists_word (t : Text) : ∃ word n more, t = word ++ (List.replicate n ' ' ++ more) ∧
    ' ' ∉ word ∧ more.head? ≠ some ' ' ∧ (n = 0 → more = []) := by
  have hword : ' ' ∉ t.takeWhile (· != ' ') := fun hmem => by
    simpa using List.mem_takeWhile_imp hmem
  have hrest := List.head?_dropWhile_not (· != ' ') t
  have hmore := List.head?_dropWhile_not (· == ' ') (t.dropWhile (· != ' '))
  have hspaces : ∀ c ∈ (t.dropWhile (· != ' ')).takeWhile (· == ' '), c = ' ' := fun c hc => by
    simpa using List.mem_takeWhile_imp hc
  refine ⟨t.takeWhile (· != ' '), ((t.dropWhile (· != ' ')).takeWhile (· == ' ')).length,
    (t.dropWhile (· != ' ')).dropWhile (· == ' '), ?_, hword, fun heq => ?_, fun hnone => ?_⟩
  · rw [← List.eq_replicate_of_mem hspaces, List.takeWhile_append_dropWhile,
      List.takeWhile_append_dropWhile]
  · rw [heq] at hmore
    simp at hmore
  · cases hafter : t.dropWhile (· != ' ') with
    | nil => rfl
    | cons c rest =>
        rw [hafter] at hrest hnone
        simp_all

theorem flatMap_escape_spaces (n : Nat) :
    (List.replicate n ' ').flatMap escape = List.replicate n ' ' := by
  induction n with
  | zero => rfl
  | succ n ih => rw [List.replicate_succ, List.flatMap_cons, ih]; rfl

/-- A quoted name is read as it is, with the spaces in it. -/
theorem quotedBody_escaped (h : name.Printed) {c : Cursor}
    (hc : c.rest = name.flatMap escape ++ '"' :: rest) (hcolumn : c.column ≠ 0) :
    quotedBody '"' c = some (name, c.skip ((name.flatMap escape).length + 1)) := by
  -- a step takes a word and the spaces after it, so the induction is on how much is left
  induction hn : name.length using Nat.strongRecOn generalizing name c with
  | ind n ih =>
      have hmark := Cursor.atDocumentMark_eq_false hcolumn
      have hrest : c.rest.isEmpty = false := by simp [hc]
      obtain ⟨word, spaces, more, rfl, hspace, hmore, hlast⟩ := exists_word name
      have hword : word.Printed := fun ch hch => h ch (List.mem_append_left _ hch)
      have hprinted : more.Printed := fun ch hch =>
        h ch (List.mem_append_right _ (List.mem_append_right _ hch))
      rw [List.flatMap_append, List.flatMap_append, flatMap_escape_spaces, List.append_assoc,
        List.append_assoc] at hc
      have hafter := Cursor.rest_skip_append hc
      have hread := fun hnext => quotedWord_escaped hword hspace hc hnext
      generalize hskip : c.skip (word.flatMap escape).length = after at hafter hread
      rw [quotedBody]
      simp only [hmark, hrest, Bool.or_self, Bool.false_eq_true, if_false]
      cases spaces with
      | zero =>
          obtain rfl := hlast rfl
          have hclose : after.rest.head? = some '"' := by rw [hafter]; rfl
          simp only [hread (.inr rfl), hclose, if_true]
          simp [← hskip, Cursor.skip_skip]
      | succ m =>
          obtain ⟨ch, tail, htail, hdark⟩ := exists_dark_escaped hprinted hmore rest
          have hopen : after.rest.head? ≠ some '"' := by rw [hafter]; simp [List.replicate_succ]
          have hgap := gap?_spaces (m + 1) (g := .none) rfl (htail ▸ hafter) hdark
          have hnext : (after.skip (m + 1)).rest = more.flatMap escape ++ '"' :: rest := by
            have := Cursor.rest_skip_append hafter
            rwa [List.length_replicate] at this
          have hcolumn' : (after.skip (m + 1)).column ≠ 0 := by
            rw [Cursor.column_skip]
            omega
          have hlt : (after.skip (m + 1)).rest.length < c.rest.length := by
            rw [hnext, hc]
            simp only [List.length_append, List.length_replicate]
            omega
          have hlater := ih more.length (by rw [← hn]; simp; omega) hprinted hnext hcolumn' rfl
          simp only [hread (.inl rfl), hopen, if_false, Bool.false_eq_true, hgap, hlt, if_true,
            hlater]
          simp [Found.prepend, Gap.folded, Gap.none, ← hskip, Cursor.skip_skip, Nat.add_assoc,
            flatMap_escape_spaces]

theorem quoted?_quoted (h : name.Printed) {c : Cursor} (hc : c.rest = quoted name ++ rest) :
    quoted? '"' c = some (name, c.skip (quoted name).length) := by
  have hopen : (c.skip 1).rest = name.flatMap escape ++ '"' :: rest := by simp [hc, quoted]
  have hbody := quotedBody_escaped h hopen (by simp)
  rw [quoted?, hbody, Cursor.skip_skip, quoted]
  simp [Nat.add_comm]

end Yaml

end BlockSieve
