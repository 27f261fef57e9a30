import BlockSieve.Path
import BlockSieve.Path.Component
import BlockSieve.Proofs.Location

/-!
The names of the paths that are made from a path. There are two ways to cut
its last name off: by the text alone, where a dot at the end is a name, and as
the disk's callers do, where it is none. Either way the names that are left
are names of the path, in their order, and stop before its last.
-/

namespace BlockSieve

namespace Tree

theorem namesOf_slash (path : Text) : namesOf (path ++ ['/']) = namesOf path := by
  rw [namesOf_append]
  exact List.append_nil _

theorem fromRoot_append {path : Text} (h : path ≠ []) (rest : Text) :
    fromRoot (path ++ rest) = fromRoot path := by
  cases path with
  | nil => exact absurd rfl h
  | cons c path => rfl

theorem fromRoot_of_plain {name : Text} (h : Plain name) : fromRoot name = false := by
  cases name with
  | nil => rfl
  | cons c name =>
      have hc : c ≠ '/' := fun hc => h.2 (hc ▸ List.mem_cons_self ..)
      simp [fromRoot, hc]

/-- The first names are those before the last one, dots aside. -/
def Above (init names : List Text) : Prop :=
  ∃ name j k, names = init ++ List.replicate j ['.'] ++ name :: List.replicate k ['.']

theorem Above.prefix_dropLast {init names : List Text} (h : Above init names) :
    init <+: names.dropLast := by
  obtain ⟨name, j, k, rfl⟩ := h
  rw [List.dropLast_append_of_ne_nil (by simp), List.append_assoc]
  exact List.prefix_append ..

theorem Above.eq_of_concat {init front : List Text} {name : Text}
    (h : Above init (front ++ [name])) (hdot : name ≠ ['.']) :
    ∃ j, front = init ++ List.replicate j ['.'] := by
  obtain ⟨name', j, k, hnames⟩ := h
  cases k with
  | zero => exact ⟨j, (List.append_inj' hnames rfl).1⟩
  | succ k =>
      rw [List.replicate_succ', ← List.cons_append, ← List.append_assoc] at hnames
      exact absurd (List.singleton_inj.mp (List.append_inj' hnames rfl).2) hdot

end Tree

open BlockSieve.Tree (namesOf fromRoot Plain)

namespace Component

/-! ### Without what is idle at the end -/

theorem namesOf_dropIdle (r : Text) :
    ∃ k, namesOf r.reverse = namesOf (dropIdle r).reverse ++ List.replicate k ['.'] := by
  fun_induction dropIdle r with
  | case1 => exact ⟨0, rfl⟩
  | case2 => exact ⟨0, rfl⟩
  | case3 r hne ih =>
      obtain ⟨k, hk⟩ := ih
      exact ⟨k, by rw [List.reverse_cons, Tree.namesOf_slash, hk]⟩
  | case4 c hc d hidle =>
      obtain ⟨rfl, rfl⟩ := hidle
      exact ⟨1, rfl⟩
  | case5 c hc d s hidle hne ih =>
      obtain ⟨rfl, rfl⟩ := hidle
      obtain ⟨k, hk⟩ := ih
      have hsplit : ('.' :: '/' :: s).reverse = s.reverse ++ '/' :: ['.'] := by simp
      refine ⟨k + 1, ?_⟩
      rw [hsplit, Tree.namesOf_append, hk, List.replicate_succ', List.append_assoc]
      rfl
  | case6 => exact ⟨0, by simp⟩
  | case7 => exact ⟨0, by simp⟩

theorem dropIdle_suffix (r : Text) : dropIdle r <:+ r ∧ (dropIdle r = [] → r = []) := by
  fun_induction dropIdle r with
  | case1 => simp
  | case2 => simp
  | case3 r hne ih => exact ⟨ih.1.trans (List.suffix_cons ..), fun h => absurd (ih.2 h) hne⟩
  | case4 c hc d hidle =>
      obtain ⟨rfl, rfl⟩ := hidle
      exact ⟨List.suffix_cons .., by simp⟩
  | case5 c hc d s hidle hne ih =>
      refine ⟨ih.1.trans ?_, fun h => absurd (ih.2 h) hne⟩
      exact (List.suffix_cons ..).trans (List.suffix_cons ..)
  | case6 => simp
  | case7 => simp

/-- What is left ends neither in a slash nor in a dot after one, if it is not the root. -/
theorem dropIdle_cases (r : Text) :
    dropIdle r = [] ∨ dropIdle r = ['/'] ∨
      ∃ c s, dropIdle r = c :: s ∧ c ≠ '/' ∧ ¬ (c = '.' ∧ s.head? = some '/') := by
  fun_induction dropIdle r with
  | case1 => exact .inl rfl
  | case2 => exact .inr (.inl rfl)
  | case3 r hne ih => exact ih
  | case4 => exact .inr (.inl rfl)
  | case5 c hc d s hidle hne ih => exact ih
  | case6 c hc d s hidle => exact .inr (.inr ⟨c, d :: s, rfl, hc, by simpa using hidle⟩)
  | case7 c hc => exact .inr (.inr ⟨c, [], rfl, hc, by simp⟩)

theorem namesOf_bare (x : Text) :
    ∃ k, namesOf x = namesOf (bare x) ++ List.replicate k ['.'] := by
  have h := namesOf_dropIdle x.reverse
  rwa [List.reverse_reverse] at h

theorem fromRoot_bare (x : Text) : fromRoot (bare x) = fromRoot x := by
  obtain ⟨⟨front, hfront⟩, hne⟩ := dropIdle_suffix x.reverse
  have hx : x = bare x ++ front.reverse := by
    rw [bare, ← List.reverse_append, hfront, List.reverse_reverse]
  by_cases hbare : bare x = []
  · have hnil : x = [] := List.reverse_eq_nil_iff.mp (hne (List.reverse_eq_nil_iff.mp hbare))
    rw [hbare, hnil]
  · rw [congrArg fromRoot hx, Tree.fromRoot_append hbare]

/-- The last cut in what is left is the root's, or a component follows it. -/
theorem cutLast_bare {x before name : Text}
    (h : Text.cutLast '/' (bare x) = some (before, name)) :
    bare x = ['/'] ∨ (Plain name ∧ name ≠ ['.']) := by
  obtain ⟨hbare, hslash⟩ := Text.eq_of_cutLast h
  have hreverse : dropIdle x.reverse = name.reverse ++ '/' :: before.reverse := by
    have hback := congrArg List.reverse hbare
    simpa [bare] using hback
  rcases dropIdle_cases x.reverse with hnil | hroot | ⟨c, s, hend, hc, hidle⟩
  · rw [hnil] at hreverse
    simp at hreverse
  · exact .inl (by rw [bare, hroot]; rfl)
  · right
    rw [hend] at hreverse
    refine ⟨⟨?_, hslash⟩, ?_⟩
    · rintro rfl
      exact hc (List.cons.inj hreverse).1
    · rintro rfl
      obtain ⟨rfl, rfl⟩ := List.cons.inj hreverse
      exact hidle ⟨rfl, rfl⟩

theorem bare_initial (x : Text) : bare x <+: x := by
  have h := List.reverse_prefix.mpr (dropIdle_suffix x.reverse).1
  rwa [List.reverse_reverse] at h

/-! ### The directory that holds the last component -/

/-- How a path is made of the directory that holds its last component, and of that component. -/
theorem directory?_cases {x directory : Text} (h : directory? x = some directory) :
    ∃ name, Plain name ∧
      (directory = [] ∧ bare x = name ∨ directory = ['/'] ∧ bare x = '/' :: name ∨
        ∃ before, before ≠ [] ∧ directory = bare before ∧ bare x = before ++ '/' :: name) := by
  unfold directory? at h
  dsimp only at h
  split at h
  · cases h
  · next hne =>
      rw [not_or] at hne
      split at h
      · next hcut =>
          have hplain : Plain (bare x) := ⟨hne.1, (Text.cutLast_eq_none_iff '/' _).mp hcut⟩
          exact ⟨bare x, hplain, .inl ⟨(Option.some.inj h).symm, rfl⟩⟩
      · next name hcut =>
          obtain ⟨hplain, -⟩ := (cutLast_bare hcut).resolve_left hne.2
          exact ⟨name, hplain, .inr (.inl ⟨(Option.some.inj h).symm, (Text.eq_of_cutLast hcut).1⟩)⟩
      · next before name hbefore hcut =>
          obtain ⟨hplain, -⟩ := (cutLast_bare hcut).resolve_left hne.2
          exact ⟨name, hplain, .inr (.inr ⟨before, hbefore, (Option.some.inj h).symm,
            (Text.eq_of_cutLast hcut).1⟩)⟩

theorem fromRoot_directory? {x directory : Text} (h : directory? x = some directory) :
    fromRoot directory = fromRoot x := by
  rw [← fromRoot_bare x]
  obtain ⟨name, hplain, ⟨rfl, hbare⟩ | ⟨rfl, hbare⟩ | ⟨before, hbefore, rfl, hbare⟩⟩ :=
    directory?_cases h
  · rw [hbare, Tree.fromRoot_of_plain hplain]
    rfl
  · rw [hbare]
    rfl
  · rw [hbare, fromRoot_bare, Tree.fromRoot_append hbefore]

/-- The directory is named as the path is, up to the component, with the dots left out that come
before it. -/
theorem above_directory? {x directory : Text} (h : directory? x = some directory) :
    Tree.Above (namesOf directory) (namesOf x) := by
  obtain ⟨k, hnames⟩ := namesOf_bare x
  obtain ⟨name, hplain, ⟨rfl, hbare⟩ | ⟨rfl, hbare⟩ | ⟨before, -, rfl, hbare⟩⟩ :=
    directory?_cases h
  · refine ⟨name, 0, k, ?_⟩
    rw [hnames, hbare, Tree.namesOf_of_plain hplain]
    rfl
  · refine ⟨name, 0, k, ?_⟩
    rw [hnames, hbare, ← List.nil_append ('/' :: name), Tree.namesOf_append,
      Tree.namesOf_of_plain hplain]
    rfl
  · obtain ⟨j, hbefore⟩ := namesOf_bare before
    refine ⟨name, j, k, ?_⟩
    rw [hnames, hbare, Tree.namesOf_append, Tree.namesOf_of_plain hplain, hbefore,
      List.append_assoc _ [name]]
    rfl

theorem directory?_initial {x directory : Text} (h : directory? x = some directory) :
    directory <+: x ∧ directory.length < x.length := by
  have hprefix := bare_initial x
  have hlength := hprefix.length_le
  obtain ⟨name, ⟨hname, -⟩, ⟨rfl, hbare⟩ | ⟨rfl, hbare⟩ | ⟨before, -, rfl, hbare⟩⟩ :=
    directory?_cases h
  · refine ⟨List.nil_prefix, ?_⟩
    rw [hbare] at hlength
    exact Nat.lt_of_lt_of_le (List.length_pos_iff.mpr hname) hlength
  · rw [hbare] at hprefix hlength
    refine ⟨List.IsPrefix.trans ⟨name, rfl⟩ hprefix, ?_⟩
    have hpos := List.length_pos_iff.mpr hname
    simp only [List.length_cons, List.length_nil] at hlength ⊢
    omega
  · rw [hbare] at hprefix hlength
    refine ⟨(bare_initial before).trans ((List.prefix_append ..).trans hprefix), ?_⟩
    have hbefore := (bare_initial before).length_le
    simp only [List.length_append, List.length_cons] at hlength
    omega

/-! ### Beside the last component -/

theorem namesOf_within (directory : Text) {name : Text} (h : Plain name) :
    namesOf (within directory name) = namesOf directory ++ [name] := by
  unfold within
  split
  · next hnil =>
      subst hnil
      exact Tree.namesOf_of_plain h
  · split
    · next hslash =>
        obtain ⟨front, rfl⟩ := List.getLast?_eq_some_iff.mp hslash
        rw [List.append_assoc, List.singleton_append, Tree.namesOf_append, Tree.namesOf_slash,
          Tree.namesOf_of_plain h]
    · rw [Tree.namesOf_append, Tree.namesOf_of_plain h]

theorem fromRoot_within (directory : Text) {name : Text} (h : Plain name) :
    fromRoot (within directory name) = fromRoot directory := by
  unfold within
  split
  · next hnil =>
      rw [hnil]
      exact Tree.fromRoot_of_plain h
  · next hne =>
      split
      · exact Tree.fromRoot_append hne _
      · exact Tree.fromRoot_append hne _

theorem bare_of_directory? {x : Text} (h : directory? x = none) : bare x = [] ∨ bare x = ['/'] := by
  unfold directory? at h
  dsimp only at h
  split at h
  · assumption
  · split at h <;> cases h

theorem dots_of_directory? {x : Text} (h : directory? x = none) :
    ∀ name ∈ namesOf x, name = ['.'] := by
  obtain ⟨k, hnames⟩ := namesOf_bare x
  have hnil : namesOf (bare x) = [] := by
    rcases bare_of_directory? h with hbare | hbare
    · rw [hbare]
      rfl
    · rw [hbare]
      rfl
  intro name hname
  rw [hnames, hnil] at hname
  exact List.eq_of_mem_replicate hname

theorem last?_of_directory? {x : Text} (h : directory? x = none) : last? x = none := by
  rcases bare_of_directory? h with hend | hend
  · simp [last?, hend, Text.cutLast]
  · simp [last?, hend, Text.cutLast]

theorem namesOf_bare_of_concat {x name : Text} {init : List Text} (h : namesOf x = init ++ [name])
    (hdot : name ≠ ['.']) : namesOf (bare x) = init ++ [name] := by
  obtain ⟨k, hnames⟩ := namesOf_bare x
  cases k with
  | zero => simpa [h] using hnames.symm
  | succ k =>
      rw [h, List.replicate_succ', ← List.append_assoc] at hnames
      exact absurd (List.singleton_inj.mp (List.append_inj' hnames rfl).2) hdot

/-- The last name of a path, if it is neither of the dots, is its last component. -/
theorem last?_of_concat {x name : Text} {init : List Text} (h : namesOf x = init ++ [name])
    (hdot : name ≠ ['.']) (hdots : name ≠ ['.', '.']) : last? x = some name := by
  have hbare := namesOf_bare_of_concat h hdot
  have hname : name ≠ [] := by
    have hmem : name ∈ namesOf x := by simp [h]
    exact (Tree.plain_of_mem_namesOf hmem).1
  have hcounts : ¬ (name = [] ∨ name = ['.'] ∨ name = ['.', '.']) := by simp [hname, hdot, hdots]
  cases hcut : Text.cutLast '/' (bare x) with
  | none =>
      have hplain : Plain (bare x) := by
        refine ⟨fun hnil => ?_, (Text.cutLast_eq_none_iff '/' _).mp hcut⟩
        rw [hnil] at hbare
        simp [namesOf, Text.cutAt] at hbare
      rw [Tree.namesOf_of_plain hplain, ← List.nil_append [bare x]] at hbare
      obtain rfl := List.singleton_inj.mp (List.append_inj' hbare rfl).2
      simp only [last?, hcut, if_neg hcounts]
  | some parts =>
      obtain ⟨before, after⟩ := parts
      rcases cutLast_bare hcut with hroot | ⟨hplain, -⟩
      · rw [hroot] at hbare
        simp [namesOf, Text.cutAt] at hbare
      · rw [(Text.eq_of_cutLast hcut).1, Tree.namesOf_append, Tree.namesOf_of_plain hplain] at hbare
        obtain rfl := List.singleton_inj.mp (List.append_inj' hbare rfl).2
        simp only [last?, hcut, if_neg hcounts]

/-- A path that does not go up and has no last component stays where it starts. -/
theorem dots_of_last? {x : Text} (h : last? x = none) (hup : ['.', '.'] ∉ namesOf x) :
    ∀ name ∈ namesOf x, name = ['.'] := by
  obtain ⟨k, hnames⟩ := namesOf_bare x
  have hup : ['.', '.'] ∉ namesOf (bare x) := by
    rw [hnames] at hup
    exact fun hmem => hup (List.mem_append_left _ hmem)
  have hdots : ∀ name ∈ namesOf (bare x), name = ['.'] := by
    cases hcut : Text.cutLast '/' (bare x) with
    | none =>
        simp only [last?, hcut, ite_eq_left_iff, reduceCtorEq, imp_false, Decidable.not_not] at h
        rcases h with hnil | hdot | htwo
        · rw [hnil]
          exact List.forall_mem_nil _
        · rw [hdot]
          exact List.forall_mem_singleton.mpr rfl
        · rw [htwo] at hup
          exact absurd (List.mem_singleton.mpr rfl) hup
    | some parts =>
        obtain ⟨before, name⟩ := parts
        simp only [last?, hcut, ite_eq_left_iff, reduceCtorEq, imp_false, Decidable.not_not] at h
        rcases cutLast_bare hcut with hroot | ⟨hplain, hdot⟩
        · rw [hroot]
          exact List.forall_mem_nil _
        · obtain rfl := (h.resolve_left hplain.1).resolve_left hdot
          rw [(Text.eq_of_cutLast hcut).1, Tree.namesOf_append] at hup
          exact absurd (List.mem_append_right _ (List.mem_singleton.mpr rfl)) hup
  intro name hname
  rw [hnames] at hname
  rcases List.mem_append.mp hname with hname | hname
  · exact hdots name hname
  · exact List.eq_of_mem_replicate hname

theorem getLast?_within (directory : Text) {name : Text} (h : Plain name) :
    (within directory name).getLast? = name.getLast? := by
  obtain ⟨c, hc⟩ : ∃ c, name.getLast? = some c :=
    Option.ne_none_iff_exists'.mp (by simpa using h.1)
  unfold within
  split
  · rfl
  · split
    · rw [List.getLast?_append, hc]
      rfl
    · rw [List.getLast?_append, List.getLast?_cons, hc]
      rfl

theorem beside_eq_within (path name : Text) :
    ∃ directory, beside path name = within directory name := by
  unfold beside
  split
  · exact ⟨_, rfl⟩
  · exact ⟨_, rfl⟩

/-- What stands beside a path that does not go up is in a directory above its last name, or in the
one where the path starts. -/
theorem names_beside {x hidden : Text} (hhidden : Plain hidden) (hup : ['.', '.'] ∉ namesOf x) :
    fromRoot (beside x hidden) = fromRoot x ∧ ∃ init,
      namesOf (beside x hidden) = init ++ [hidden] ∧
        (Tree.Above init (namesOf x) ∨ init = namesOf x ∧ ∀ name ∈ init, name = ['.']) := by
  cases hlast : last? x with
  | none =>
      simp only [beside, hlast]
      exact ⟨fromRoot_within x hhidden, _, namesOf_within x hhidden,
        .inr ⟨rfl, dots_of_last? hlast hup⟩⟩
  | some name =>
      obtain ⟨directory, hdirectory⟩ := Option.ne_none_iff_exists'.mp
        (mt last?_of_directory? (by rw [hlast]; simp))
      simp only [beside, hlast, hdirectory, Option.getD_some]
      exact ⟨(fromRoot_within _ hhidden).trans (fromRoot_directory? hdirectory), _,
        namesOf_within _ hhidden, .inl (above_directory? hdirectory)⟩

end Component

namespace Path

theorem namesOf_dropSlashes (x : Text) : namesOf (dropSlashes x) = namesOf x := by
  have hreverse : ∀ r : Text, namesOf (r.dropWhile (· == '/')).reverse = namesOf r.reverse := by
    intro r
    induction r with
    | nil => rfl
    | cons c r ih =>
        by_cases hc : c = '/'
        · subst hc
          rw [List.reverse_cons, Tree.namesOf_slash, ← ih]
          rfl
        · rw [List.dropWhile_cons_of_neg (by simpa using hc)]
  have h := hreverse x.reverse
  rwa [List.reverse_reverse] at h

theorem dropSlashes_initial (x : Text) : dropSlashes x <+: x :=
  List.reverse_suffix.mp (by simpa [dropSlashes] using List.dropWhile_suffix _)

theorem fromRoot_dropSlashes {x : Text} (h : dropSlashes x ≠ []) :
    fromRoot (dropSlashes x) = fromRoot x := by
  obtain ⟨rest, hrest⟩ := dropSlashes_initial x
  rw [← Tree.fromRoot_append h rest, hrest]

/-- In a path without slashes at its end, a name follows every slash that is the last. -/
theorem plain_of_cutLast {x before name : Text}
    (h : Text.cutLast '/' (dropSlashes x) = some (before, name)) : Plain name := by
  obtain ⟨hcut, hslash⟩ := Text.eq_of_cutLast h
  refine ⟨?_, hslash⟩
  rintro rfl
  have hreverse : x.reverse.dropWhile (· == '/') = '/' :: before.reverse := by
    have hback := congrArg List.reverse hcut
    simpa [dropSlashes] using hback
  have hhead := List.head?_dropWhile_not (· == '/') x.reverse
  rw [hreverse] at hhead
  simp at hhead

theorem names_of_parent? {p parent : Path} (h : p.parent? = some parent) :
    fromRoot parent.text = fromRoot p.text ∧ namesOf parent.text = (namesOf p.text).dropLast := by
  have hdrop : dropSlashes p.text ≠ [] := by
    intro hnil
    simp [parent?, hnil, Text.cutLast] at h
  rw [← namesOf_dropSlashes p.text, ← fromRoot_dropSlashes hdrop]
  unfold parent? at h
  split at h
  · cases h
  · next name hcut =>
      obtain rfl := Option.some.inj h
      rw [(Text.eq_of_cutLast hcut).1, Tree.namesOf_append,
        Tree.namesOf_of_plain (plain_of_cutLast hcut), List.dropLast_concat]
      exact ⟨rfl, rfl⟩
  · next before name hne hcut =>
      obtain rfl := Option.some.inj h
      rw [(Text.eq_of_cutLast hcut).1, Tree.namesOf_append,
        Tree.namesOf_of_plain (plain_of_cutLast hcut), List.dropLast_concat]
      exact ⟨(Tree.fromRoot_append hne _).symm, rfl⟩

theorem parent?_initial {p parent : Path} (h : p.parent? = some parent) :
    parent.text <+: p.text ∧ parent.text ≠ [] := by
  have hdrop := dropSlashes_initial p.text
  unfold parent? at h
  split at h
  · cases h
  · next name hcut =>
      obtain rfl := Option.some.inj h
      rw [(Text.eq_of_cutLast hcut).1] at hdrop
      exact ⟨List.IsPrefix.trans ⟨name, rfl⟩ hdrop, by simp⟩
  · next before name hne hcut =>
      obtain rfl := Option.some.inj h
      rw [(Text.eq_of_cutLast hcut).1] at hdrop
      exact ⟨(List.prefix_append ..).trans hdrop, hne⟩

theorem namesOf_of_parent? {p : Path} (h : p.parent? = none) : (namesOf p.text).dropLast = [] := by
  rw [← namesOf_dropSlashes p.text]
  unfold parent? at h
  split at h
  · next hcut =>
      have hslash := (Text.cutLast_eq_none_iff '/' _).mp hcut
      by_cases hnil : dropSlashes p.text = []
      · rw [hnil]
        rfl
      · rw [Tree.namesOf_of_plain ⟨hnil, hslash⟩]
        rfl
  · cases h
  · cases h

theorem fileName?_eq (p : Path) : p.fileName? = (namesOf p.text).getLast? := by
  rw [← namesOf_dropSlashes p.text]
  cases hcut : Text.cutLast '/' (dropSlashes p.text) with
  | none =>
      have hslash := (Text.cutLast_eq_none_iff '/' _).mp hcut
      by_cases hnil : dropSlashes p.text = []
      · simp [fileName?, hnil, namesOf, Text.cutAt, Text.cutLast]
      · simp [fileName?, hcut, hnil, Tree.namesOf_of_plain ⟨hnil, hslash⟩]
  | some parts =>
      obtain ⟨before, name⟩ := parts
      have hplain := plain_of_cutLast hcut
      have hlast : (namesOf (dropSlashes p.text)).getLast? = some name := by
        rw [(Text.eq_of_cutLast hcut).1, Tree.namesOf_append, Tree.namesOf_of_plain hplain,
          List.getLast?_concat]
      rw [hlast]
      simp [fileName?, hcut, hplain.1]

theorem backslash_not_mem_ofText (t : Text) : '\\' ∉ (ofText t).text := by
  intro hmem
  obtain ⟨c, -, hc⟩ := List.mem_map.mp hmem
  split at hc
  · cases hc
  · next hne => exact hne hc

theorem ofText_of_not_mem {t : Text} (h : '\\' ∉ t) : (ofText t).text = t := by
  refine (List.map_congr_left fun c hc => ?_).trans (List.map_id t)
  have hne : c ≠ '\\' := fun heq => h (heq ▸ hc)
  rw [if_neg hne, id]

theorem ofText_ofText (t : Text) : ofText (ofText t).text = ofText t :=
  congrArg mk (ofText_of_not_mem (backslash_not_mem_ofText t))

end Path

end BlockSieve
