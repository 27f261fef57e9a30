import BlockSieve.Proofs.PathName
import Mathlib.Data.List.DropRight
import Mathlib.Logic.Function.Iterate

/-!
How a path hangs together with its parent, its last name, and the paths that
are made by appending to that name. All of them leave slashes at the end
aside, so each is settled by the text before those slashes: the part of it up
to the last slash makes the parent, and what follows that slash is the name.
-/

namespace BlockSieve

namespace Text

theorem cutLast_eq_some_iff {sep : Char} {t before after : Text} :
    cutLast sep t = some (before, after) ↔ t = before ++ sep :: after ∧ sep ∉ after := by
  constructor
  · exact eq_of_cutLast
  · rintro ⟨rfl, hafter⟩
    induction before with
    | nil => simp [cutLast, (cutLast_eq_none_iff sep after).mpr hafter]
    | cons c before ih => simp [cutLast, ih]

/-- What is appended without a separator in it belongs to the last part. -/
theorem cutLast_append {sep : Char} {s : Text} (hs : sep ∉ s) (t : Text) :
    cutLast sep (t ++ s) = (cutLast sep t).map fun r => (r.1, r.2 ++ s) := by
  cases ht : cutLast sep t with
  | none =>
      have hfree := (cutLast_eq_none_iff sep t).mp ht
      exact (cutLast_eq_none_iff sep _).mpr (by simp [hfree, hs])
  | some parts =>
      obtain ⟨before, after⟩ := parts
      obtain ⟨rfl, hafter⟩ := cutLast_eq_some_iff.mp ht
      exact cutLast_eq_some_iff.mpr ⟨by simp, by simp [hafter, hs]⟩

end Text

namespace Path

variable {p q parent : Path} {name suffix : Text}

/-! ### Slashes at the end -/

theorem exists_slashes (t : Text) : ∃ k, t = dropSlashes t ++ List.replicate k '/' := by
  have hslashes : ∀ c ∈ t.rtakeWhile (· == '/'), c = '/' := fun c hc => by
    simpa using List.mem_rtakeWhile_imp hc
  refine ⟨(t.rtakeWhile (· == '/')).length, ?_⟩
  rw [← List.eq_replicate_of_mem hslashes]
  exact List.rdropWhile_append_rtakeWhile.symm

/-- Slashes that are not at the end stay. -/
theorem dropSlashes_of_plain (t : Text) {s : Text} (hs : Tree.Plain s) :
    dropSlashes (t ++ s) = t ++ s := by
  refine List.rdropWhile_eq_self_iff.mpr fun _ hlast => hs.2 ?_
  rw [List.getLast_append_of_ne_nil _ hs.1, beq_iff_eq] at hlast
  exact hlast ▸ List.getLast_mem hs.1

theorem dropSlashes_append (t : Text) {s : Text} (hs : '/' ∉ s) :
    dropSlashes (dropSlashes t ++ s) = dropSlashes t ++ s := by
  by_cases hnil : s = []
  · rw [hnil, List.append_nil]
    exact List.rdropWhile_idempotent _ t
  · exact dropSlashes_of_plain (dropSlashes t) ⟨hnil, hs⟩

/-- Texts that differ at most in the number of slashes at their ends. -/
def SameButSlashesAtEnd (s t : Text) : Prop :=
  ∃ r j k, s = r ++ List.replicate j '/' ∧ t = r ++ List.replicate k '/'

theorem sameButSlashesAtEnd_of_dropSlashes {s t : Text} (h : dropSlashes s = dropSlashes t) :
    SameButSlashesAtEnd s t := by
  obtain ⟨j, hs⟩ := exists_slashes s
  obtain ⟨k, ht⟩ := exists_slashes t
  exact ⟨dropSlashes s, j, k, hs, h ▸ ht⟩

/-- A text with one slash in place of each run of slashes. -/
def squeezed : Text → Text
  | '/' :: '/' :: rest => squeezed ('/' :: rest)
  | c :: rest => c :: squeezed rest
  | [] => []

/-- Texts that differ at most in how long their runs of slashes are, and in slashes at their
ends. -/
def SameButSlashes (s t : Text) : Prop :=
  ∃ j k, squeezed (s ++ List.replicate j '/') = squeezed (t ++ List.replicate k '/')

/-! ### The parent and the last name -/

theorem fileName?_of_cutLast {before : Text}
    (h : Text.cutLast '/' (dropSlashes p.text) = some (before, name)) :
    p.fileName? = some name := by
  simp [fileName?, h, (plain_of_cutLast h).1]

theorem fileName?_of_plain (h : Tree.Plain (dropSlashes p.text)) :
    p.fileName? = some (dropSlashes p.text) := by
  simp [fileName?, (Text.cutLast_eq_none_iff '/' _).mpr h.2, h.1]

/-- A path consists of its last name, or has it after a slash. -/
theorem cut_of_fileName? (h : p.fileName? = some name) :
    Tree.Plain name ∧ (dropSlashes p.text = name ∨
      ∃ before, Text.cutLast '/' (dropSlashes p.text) = some (before, name)) := by
  cases hcut : Text.cutLast '/' (dropSlashes p.text) with
  | none =>
      have hslash := (Text.cutLast_eq_none_iff '/' _).mp hcut
      by_cases hnil : dropSlashes p.text = []
      · simp [fileName?, hnil, Text.cutLast] at h
      · rw [fileName?_of_plain ⟨hnil, hslash⟩] at h
        exact Option.some.inj h ▸ ⟨⟨hnil, hslash⟩, .inl rfl⟩
  | some parts =>
      obtain ⟨before, after⟩ := parts
      rw [fileName?_of_cutLast hcut] at h
      exact Option.some.inj h ▸ ⟨plain_of_cutLast hcut, .inr ⟨before, rfl⟩⟩

theorem mem_of_mem_fileName? {c : Char} (h : p.fileName? = some name) (hc : c ∈ name) :
    c ∈ p.text := by
  refine (dropSlashes_initial p.text).mem ?_
  obtain ⟨-, hcut | ⟨before, hcut⟩⟩ := cut_of_fileName? h
  · rwa [hcut]
  · rw [(Text.eq_of_cutLast hcut).1]
    simp [hc]

/-- A last name without a backslash is still the last name once the backslashes before it have become
slashes. -/
theorem fileName?_ofText {t : Text} (h : (Tree.namesOf t).getLast? = some name)
    (hname : '\\' ∉ name) : (ofText t).fileName? = some name := by
  have hslashes : ∀ (u : Text) (k : Nat),
      Tree.namesOf (u ++ List.replicate k '/') = Tree.namesOf u := by
    intro u k
    induction k with
    | zero => rw [List.replicate_zero, List.append_nil]
    | succ k ih => rw [List.replicate_succ', ← List.append_assoc, Tree.namesOf_slash, ih]
  have happend : ∀ u v : Text, (ofText (u ++ v)).text = (ofText u).text ++ (ofText v).text :=
    fun u v => List.map_append
  obtain ⟨plain, hcut⟩ := cut_of_fileName? (p := ⟨t⟩) ((fileName?_eq ⟨t⟩).trans h)
  have hnames : Tree.namesOf (ofText t).text = Tree.namesOf (ofText (dropSlashes t)).text := by
    obtain ⟨k, hk⟩ := exists_slashes t
    have hlast : (ofText (List.replicate k '/')).text = List.replicate k '/' :=
      ofText_of_not_mem (by simp [List.mem_replicate])
    conv_lhs => rw [hk, happend, hlast, hslashes]
  rw [fileName?_eq, hnames]
  rcases hcut with hcut | ⟨before, hcut⟩
  · rw [hcut, ofText_of_not_mem hname, Tree.namesOf_of_plain plain]
    rfl
  · have hkept : (ofText ('/' :: name)).text = '/' :: name :=
      ofText_of_not_mem (by simp [hname])
    rw [(Text.eq_of_cutLast hcut).1, happend, hkept, Tree.namesOf_append,
      Tree.namesOf_of_plain plain, List.getLast?_concat]

theorem length_parent?_lt (h : p.parent? = some parent) :
    parent.text.length < p.text.length := by
  obtain ⟨k, hk⟩ := exists_slashes p.text
  have hdrop := congrArg List.length hk
  rw [List.length_append] at hdrop
  unfold parent? at h
  split at h
  · cases h
  · next name hcut =>
      obtain rfl := Option.some.inj h
      have hname := List.length_pos_iff.mpr (plain_of_cutLast hcut).1
      rw [(Text.eq_of_cutLast hcut).1] at hdrop
      simp only [List.length_append, List.length_cons, List.length_nil] at hdrop ⊢
      omega
  · next before name _ hcut =>
      obtain rfl := Option.some.inj h
      rw [(Text.eq_of_cutLast hcut).1] at hdrop
      simp only [List.length_append, List.length_cons] at hdrop ⊢
      omega

/-- The parent of a parent, and so on, comes to an end. -/
theorem exists_iterate_parent?_eq_none (p : Path) :
    ∃ n, (fun o : Option Path => o.bind parent?)^[n] (some p) = none := by
  induction hn : p.text.length using Nat.strongRecOn generalizing p with
  | ind n ih =>
      cases hparent : p.parent? with
      | none => exact ⟨1, hparent⟩
      | some parent =>
          obtain ⟨m, hm⟩ := ih _ (hn ▸ length_parent?_lt hparent) parent rfl
          refine ⟨m + 1, ?_⟩
          rw [Function.iterate_succ_apply, Option.bind_some, hparent, hm]

theorem join_parent?_fileName? (hparent : p.parent? = some parent)
    (hname : p.fileName? = some name) :
    SameButSlashes (parent.text ++ '/' :: name) p.text := by
  obtain ⟨k, hk⟩ := exists_slashes p.text
  refine ⟨k, 0, ?_⟩
  rw [List.replicate_zero, List.append_nil]
  obtain ⟨hplain, rfl | ⟨before, hcut⟩⟩ := cut_of_fileName? hname
  · simp [parent?, (Text.cutLast_eq_none_iff '/' _).mpr hplain.2] at hparent
  · have hdrop := (Text.eq_of_cutLast hcut).1
    cases before with
    | nil =>
        obtain rfl : ⟨['/']⟩ = parent := by simpa [parent?, hcut] using hparent
        rw [hk, hdrop]
        rfl
    | cons c before =>
        obtain rfl : ⟨c :: before⟩ = parent := by simpa [parent?, hcut] using hparent
        rw [hk, hdrop]

/-! ### Paths with a suffix -/

theorem fileName?_withSuffix (hname : p.fileName? = some name) (hsuffix : '/' ∉ suffix) :
    (p.withSuffix suffix).fileName? = some (name ++ suffix) := by
  have hdrop : dropSlashes (p.withSuffix suffix).text = dropSlashes p.text ++ suffix :=
    dropSlashes_append p.text hsuffix
  obtain ⟨hplain, rfl | ⟨before, hcut⟩⟩ := cut_of_fileName? hname
  · rw [← hdrop]
    refine fileName?_of_plain ?_
    rw [hdrop]
    exact ⟨by simp [hplain.1], by simp [hplain.2, hsuffix]⟩
  · have hcut' : Text.cutLast '/' (dropSlashes (p.withSuffix suffix).text) =
        some (before, name ++ suffix) := by
      rw [hdrop, Text.cutLast_append hsuffix, hcut, Option.map_some]
    exact fileName?_of_cutLast hcut'

/-- Appending to the last name leaves the directory as it is. -/
theorem parent?_withSuffix (p : Path) (hsuffix : '/' ∉ suffix) :
    (p.withSuffix suffix).parent? = p.parent? := by
  unfold parent? withSuffix
  rw [dropSlashes_append _ hsuffix, Text.cutLast_append hsuffix]
  cases hcut : Text.cutLast '/' (dropSlashes p.text) with
  | none => rfl
  | some parts =>
      obtain ⟨before, after⟩ := parts
      cases before <;> rfl

theorem backup_ne (p : Path) : p.backup ≠ p := by
  intro heq
  obtain ⟨k, hk⟩ := exists_slashes p.text
  have hsame : dropSlashes p.text ++ ".backup".toList =
      dropSlashes p.text ++ List.replicate k '/' := (congrArg text heq).trans hk
  have hmem : '.' ∈ List.replicate k '/' := by
    rw [← List.append_cancel_left hsame]
    decide
  exact absurd (List.eq_of_mem_replicate hmem) (by decide)

theorem dropSlashes_of_backup_eq (h : p.backup = q.backup) :
    dropSlashes p.text = dropSlashes q.text :=
  List.append_cancel_right (congrArg text h)

/-- How the parts of a path fit together, and the paths made from it. -/
structure Fitting (p : Path) : Prop where
  parent_before : ∀ parent, p.parent? = some parent →
    parent.text <+: p.text ∧ parent.text.length < p.text.length
  parents_end : ∃ n, (fun o : Option Path => o.bind parent?)^[n] (some p) = none
  name_plain : ∀ name, p.fileName? = some name → name ≠ [] ∧ '/' ∉ name
  name_withSuffix : ∀ name suffix, p.fileName? = some name → '/' ∉ suffix →
    (p.withSuffix suffix).fileName? = some (name ++ suffix)
  parent_withSuffix : ∀ suffix, '/' ∉ suffix → (p.withSuffix suffix).parent? = p.parent?
  backup_beside : p.backup.parent? = p.parent?
  backup_apart : p.backup ≠ p
  backup_own : ∀ q : Path, p.backup = q.backup → SameButSlashesAtEnd p.text q.text
  joined : ∀ parent name, p.parent? = some parent → p.fileName? = some name →
    SameButSlashes (parent.text ++ '/' :: name) p.text

/-- **The parts of every path fit together.** -/
theorem fitting (p : Path) : p.Fitting where
  parent_before _ h := ⟨(parent?_initial h).1, length_parent?_lt h⟩
  parents_end := exists_iterate_parent?_eq_none p
  name_plain _ h := (cut_of_fileName? h).1
  name_withSuffix _ _ := fileName?_withSuffix
  parent_withSuffix _ := p.parent?_withSuffix
  backup_beside := p.parent?_withSuffix (by decide)
  backup_apart := p.backup_ne
  backup_own _ h := sameButSlashesAtEnd_of_dropSlashes (dropSlashes_of_backup_eq h)
  joined _ _ := join_parent?_fileName?

end Path

end BlockSieve
