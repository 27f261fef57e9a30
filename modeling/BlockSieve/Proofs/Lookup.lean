import BlockSieve.Tree.Walk

/-!
Looking up paths as a relation, one rule for each kind of name on the way.
The rules speak of success only. What they say of one tree they say of every
tree that keeps what stands in it: directories and links stay as they are, a
file may get other bytes, and something new may stand where nothing was. So a
path that leads to a file leads to the same place after files were written.
-/

namespace BlockSieve

/-- Entries of one kind; of files, the bytes and the mode may differ. -/
inductive Entry.SameKind : Entry → Entry → Prop
  | directory : SameKind .directory .directory
  | file (bytes : Bytes) (mode : Nat) (bytes' : Bytes) (mode' : Nat) :
      SameKind (.file bytes mode) (.file bytes' mode')
  | link (target : Text) : SameKind (.link target) (.link target)

theorem Entry.SameKind.refl (e : Entry) : e.SameKind e := by
  cases e <;> constructor

namespace Tree

/-- Whatever stands in the first tree has its like at the same place in the second. -/
def Keeps (t t' : Tree) : Prop :=
  ∀ p e, t.get? p = some e → ∃ e', t'.get? p = some e' ∧ e.SameKind e'

namespace Keeps

variable {t t' : Tree}

theorem directory (h : t.Keeps t') {p : Place} (hp : t.get? p = some .directory) :
    t'.get? p = some .directory := by
  obtain ⟨e', he', hkind⟩ := h p _ hp
  cases hkind
  exact he'

theorem link (h : t.Keeps t') {p : Place} {target : Text} (hp : t.get? p = some (.link target)) :
    t'.get? p = some (.link target) := by
  obtain ⟨e', he', hkind⟩ := h p _ hp
  cases hkind
  exact he'

theorem file (h : t.Keeps t') {p : Place} {bytes : Bytes} {mode : Nat}
    (hp : t.get? p = some (.file bytes mode)) :
    ∃ bytes' mode', t'.get? p = some (.file bytes' mode') := by
  obtain ⟨e', he', hkind⟩ := h p _ hp
  cases hkind
  exact ⟨_, _, he'⟩

end Keeps

/-- A name that is looked up: no dots, and not too long. -/
structure Proper (name : Text) : Prop where
  ne_dot : name ≠ ['.']
  ne_dots : name ≠ ['.', '.']
  short : tooLong name = false

/-- Where a path leads, rule by rule. -/
inductive Leads (t : Tree) (follow : Bool) : Nat → Place → List Text → Landing → Prop
  | done {links here} : Leads t follow links here [] (.there here .directory)
  | stay {links here rest landing} (tail : Leads t follow links here rest landing) :
      Leads t follow links here (['.'] :: rest) landing
  | up {links here rest landing} (tail : Leads t follow links here.dropLast rest landing) :
      Leads t follow links here (['.', '.'] :: rest) landing
  | enter {links here name rest landing} (proper : Proper name)
      (found : t.get? (here ++ [name]) = some .directory)
      (tail : Leads t follow links (here ++ [name]) rest landing) :
      Leads t follow links here (name :: rest) landing
  | vacant {links here name} (proper : Proper name) (found : t.get? (here ++ [name]) = none) :
      Leads t follow links here [name] (.vacant here name)
  | file {links here name bytes mode} (proper : Proper name)
      (found : t.get? (here ++ [name]) = some (.file bytes mode)) :
      Leads t follow links here [name] (.there (here ++ [name]) (.file bytes mode))
  | link {links here name target} (proper : Proper name)
      (found : t.get? (here ++ [name]) = some (.link target)) (stop : follow = false) :
      Leads t follow links here [name] (.there (here ++ [name]) (.link target))
  | through {links here name rest target landing} (proper : Proper name)
      (found : t.get? (here ++ [name]) = some (.link target))
      (onward : ¬ (rest = [] ∧ follow = false)) (named : target ≠ [])
      (tail : Leads t follow links (if fromRoot target then [] else here) (route target ++ rest)
        landing) :
      Leads t follow (links + 1) here (name :: rest) landing

section

variable {t t' : Tree} {follow : Bool} {links : Nat} {here : Place} {names : List Text}
  {landing : Landing}

theorem leads_of_walk (h : t.walk follow links here names = .ok landing) :
    t.Leads follow links here names landing := by
  fun_induction walk t follow links here names with
  | case1 =>
      obtain rfl := Except.ok.inj h
      exact .done
  | case2 links here rest ih => exact .stay (ih h)
  | case3 links here rest _ ih => exact .up (ih h)
  | case4 => simp at h
  | case5 links here name hdot hdots hshort hfound =>
      obtain rfl := Except.ok.inj h
      exact .vacant ⟨hdot, hdots, by simpa using hshort⟩ hfound
  | case6 => simp at h
  | case7 links here name rest hdot hdots hshort hfound ih =>
      exact .enter ⟨hdot, hdots, by simpa using hshort⟩ hfound (ih h)
  | case8 links here name hdot hdots hshort bytes mode hfound =>
      obtain rfl := Except.ok.inj h
      exact .file ⟨hdot, hdots, by simpa using hshort⟩ hfound
  | case9 => simp at h
  | case10 links here name rest hdot hdots hshort target hfound hstop =>
      obtain rfl := Except.ok.inj h
      obtain ⟨rfl, hstop⟩ := hstop
      exact .link ⟨hdot, hdots, by simpa using hshort⟩ hfound hstop
  | case11 => simp at h
  | case12 => simp at h
  | case13 here name rest hdot hdots hshort target hfound honward links hnamed ih =>
      exact .through ⟨hdot, hdots, by simpa using hshort⟩ hfound honward hnamed (ih h)

theorem Leads.walk_eq (h : t.Leads follow links here names landing) :
    t.walk follow links here names = .ok landing := by
  induction h with
  | done => rw [walk]
  | stay _ ih => simpa [walk] using ih
  | up _ ih => simpa [walk] using ih
  | enter proper found _ ih =>
      rw [walk]
      simpa [proper.ne_dot, proper.ne_dots, proper.short, found] using ih
  | vacant proper found =>
      rw [walk]
      simp [proper.ne_dot, proper.ne_dots, proper.short, found]
  | file proper found =>
      rw [walk]
      simp [proper.ne_dot, proper.ne_dots, proper.short, found]
  | link proper found stop =>
      rw [walk]
      simp [proper.ne_dot, proper.ne_dots, proper.short, found, stop]
  | through proper found onward named _ ih =>
      rw [walk]
      simp only [proper.ne_dot, proper.ne_dots, proper.short, found, if_false, onward, named,
        Bool.false_eq_true]
      exact ih

/-- The rules say where a walk ends, if it succeeds. -/
theorem walk_eq_ok_iff :
    t.walk follow links here names = .ok landing ↔ t.Leads follow links here names landing :=
  ⟨leads_of_walk, Leads.walk_eq⟩

theorem Leads.unique {landing' : Landing} (h : t.Leads follow links here names landing)
    (h' : t.Leads follow links here names landing') : landing = landing' :=
  Except.ok.inj (h.walk_eq.symm.trans h'.walk_eq)

/-- A path leads where it leads, however many links more it may lead through. -/
theorem Leads.mono {more : Nat} (h : t.Leads follow links here names landing)
    (hle : links ≤ more) : t.Leads follow more here names landing := by
  induction h generalizing more with
  | done => exact .done
  | stay _ ih => exact .stay (ih hle)
  | up _ ih => exact .up (ih hle)
  | enter proper found _ ih => exact .enter proper found (ih hle)
  | vacant proper found => exact .vacant proper found
  | file proper found => exact .file proper found
  | link proper found stop => exact .link proper found stop
  | through proper found onward named _ ih =>
      obtain ⟨more, rfl⟩ := Nat.exists_eq_add_of_lt hle
      exact .through proper found onward named (ih (Nat.le_add_right ..))

theorem Leads.agree {more : Nat} {landing' : Landing} (h : t.Leads follow links here names landing)
    (h' : t.Leads follow more here names landing') : landing = landing' :=
  (h.mono (Nat.le_add_right links more)).unique (h'.mono (Nat.le_add_left more links))

theorem Leads.found {p : Place} {e : Entry}
    (h : t.Leads follow links here names (.there p e)) (he : e ≠ .directory) :
    t.get? p = some e := by
  generalize hl : Landing.there p e = landing at h
  induction h with
  | done => simp_all
  | stay _ ih => exact ih hl
  | up _ ih => exact ih hl
  | enter _ _ _ ih => exact ih hl
  | vacant => cases hl
  | file _ found =>
      cases hl
      exact found
  | link _ found =>
      cases hl
      exact found
  | through _ _ _ _ _ ih => exact ih hl

/-- A name is free only if the path, or a link in the tree, ends in it. -/
theorem Leads.free {dir : Place} {name : Text}
    (h : t.Leads follow links here names (.vacant dir name)) :
    Proper name ∧ t.get? (dir ++ [name]) = none ∧
      (names.getLast? = some name ∨
        ∃ p target, t.get? p = some (.link target) ∧ (route target).getLast? = some name) := by
  generalize hl : Landing.vacant dir name = landing at h
  induction h with
  | done => cases hl
  | stay tail ih | up tail ih | enter _ _ tail ih =>
      obtain ⟨proper, free, last⟩ := ih hl
      refine ⟨proper, free, last.imp_left fun last => ?_⟩
      rw [List.getLast?_cons, last]
      rfl
  | vacant proper found =>
      cases hl
      exact ⟨proper, found, .inl rfl⟩
  | file => cases hl
  | link => cases hl
  | @through links here head rest target _ _ found _ _ _ ih =>
      obtain ⟨proper, free, last⟩ := ih hl
      refine ⟨proper, free, ?_⟩
      rcases last with last | last
      -- a link that ends the path ends in the name itself
      · by_cases hrest : rest = []
        · subst hrest
          rw [List.append_nil] at last
          exact .inr ⟨_, _, found, last⟩
        · left
          rw [List.getLast?_append, List.getLast?_eq_some_getLast hrest] at last
          rw [List.getLast?_cons, List.getLast?_eq_some_getLast hrest]
          exact last
      · exact .inr last

/-- A path that ends at a file, links followed, ends at the same file with its last link not
followed, or else at that link. -/
theorem Leads.unfollowed (h : t.Leads true links here names landing) :
    t.Leads false links here names landing ∨
      ∃ p target, t.Leads false links here names (.there p (.link target)) := by
  induction h with
  | done => exact .inl .done
  | stay _ ih => exact ih.imp .stay fun ⟨p, target, h⟩ => ⟨p, target, .stay h⟩
  | up _ ih => exact ih.imp .up fun ⟨p, target, h⟩ => ⟨p, target, .up h⟩
  | enter proper found _ ih =>
      exact ih.imp (.enter proper found) fun ⟨p, target, h⟩ =>
        ⟨p, target, .enter proper found h⟩
  | vacant proper found => exact .inl (.vacant proper found)
  | file proper found => exact .inl (.file proper found)
  | link _ _ stop => cases stop
  | @through links here name rest target _ proper found _ named _ ih =>
      -- only the last link of all is not followed; those on the way to it are
      by_cases hrest : rest = []
      · subst hrest
        exact .inr ⟨_, _, .link proper found rfl⟩
      · have honward : ¬ (rest = [] ∧ false = false) := fun h => hrest h.1
        exact ih.imp (.through proper found honward named) fun ⟨p, target, h⟩ =>
          ⟨p, target, .through proper found honward named h⟩

theorem Leads.not_link {p : Place} {target : Text} :
    ¬ t.Leads true links here names (.there p (.link target)) := by
  intro h
  generalize hl : Landing.there p (.link target) = landing at h
  generalize hfollow : true = follow at h
  induction h with
  | done => cases hl
  | stay _ ih | up _ ih | enter _ _ _ ih | through _ _ _ _ _ ih => exact ih hl
  | vacant => cases hl
  | file => cases hl
  | link _ _ stop => cases hfollow.trans stop

theorem Leads.followed {p : Place} {bytes : Bytes} {mode : Nat}
    (h : t.Leads false links here names (.there p (.file bytes mode))) :
    t.Leads true links here names (.there p (.file bytes mode)) := by
  generalize hl : Landing.there p (.file bytes mode) = landing at h
  induction h with
  | done => exact .done
  | stay _ ih => exact .stay (ih hl)
  | up _ ih => exact .up (ih hl)
  | enter proper found _ ih => exact .enter proper found (ih hl)
  | vacant => cases hl
  | file proper found => exact .file proper found
  | link => cases hl
  | through proper found _ named _ ih => exact .through proper found (by simp) named (ih hl)

theorem Leads.beyond_file {p : Place} {bytes : Bytes} {mode : Nat} {rest : List Text}
    (h : t.Leads follow links here names (.there p (.file bytes mode))) (hrest : rest ≠ []) :
    t.walk follow links here (names ++ rest) = .error .notDirectory := by
  generalize hl : Landing.there p (.file bytes mode) = ending at h
  induction h with
  | done => cases hl
  | stay _ ih =>
      rw [List.cons_append, walk]
      simpa using ih hl
  | up _ ih =>
      rw [List.cons_append, walk]
      simpa using ih hl
  | enter proper found _ ih =>
      rw [List.cons_append, walk]
      simpa [proper.ne_dot, proper.ne_dots, proper.short, found] using ih hl
  | vacant => cases hl
  | file proper found =>
      rw [List.cons_append, walk]
      simp [proper.ne_dot, proper.ne_dots, proper.short, found, hrest]
  | link => cases hl
  | through proper found _ named _ ih =>
      rw [List.cons_append, walk]
      simp only [proper.ne_dot, proper.ne_dots, proper.short, found, if_false, named, hrest,
        List.append_eq_nil_iff, and_false, false_and, Bool.false_eq_true]
      rw [← List.append_assoc]
      exact ih hl

/-- No name can be followed after names that lead to a file. -/
theorem Leads.ends_at_file {p : Place} {bytes : Bytes} {mode more : Nat} {rest : List Text}
    (h : t.Leads follow links here names (.there p (.file bytes mode)))
    (h' : t.Leads follow more here (names ++ rest) landing) : rest = [] := by
  refine Decidable.byContradiction fun hrest => ?_
  have hbeyond := (h.mono (Nat.le_add_right links more)).beyond_file hrest
  rw [(h'.mono (Nat.le_add_left more links)).walk_eq] at hbeyond
  cases hbeyond

/-- What a path leads to once files were written: to its like, or, where a name was free, to the
file that has it now. -/
inductive Landing.Becomes (t' : Tree) : Landing → Landing → Prop
  | directory {p} : Becomes t' (.there p .directory) (.there p .directory)
  | there {p e e'} (kind : e.SameKind e') (found : t'.get? p = some e') :
      Becomes t' (.there p e) (.there p e')
  | filled {directory name bytes mode}
      (found : t'.get? (directory ++ [name]) = some (.file bytes mode)) :
      Becomes t' (.vacant directory name) (.there (directory ++ [name]) (.file bytes mode))

/-- Directories and links are all that a path leads along, so it leads to the same place in every
tree that has them. -/
theorem Leads.along {landing' : Landing} (h : t.Leads follow links here names landing)
    (hdirectory : ∀ p, t.get? p = some .directory → t'.get? p = some .directory)
    (hlink : ∀ p target, t.get? p = some (.link target) → t'.get? p = some (.link target))
    (hlanding : landing.Becomes t' landing') : t'.Leads follow links here names landing' := by
  induction h with
  | done =>
      cases hlanding with
      | directory => exact .done
      | there kind _ =>
          cases kind
          exact .done
  | stay _ ih => exact .stay (ih hlanding)
  | up _ ih => exact .up (ih hlanding)
  | enter proper found _ ih => exact .enter proper (hdirectory _ found) (ih hlanding)
  | vacant proper _ =>
      cases hlanding with
      | filled found => exact .file proper found
  | file proper _ =>
      cases hlanding with
      | there kind found =>
          cases kind
          exact .file proper found
  | link proper _ stop =>
      cases hlanding with
      | there kind found =>
          cases kind
          exact .link proper found stop
  | through proper found onward named _ ih =>
      exact .through proper (hlink _ _ found) onward named (ih hlanding)

/-- A path leads to the same place in every tree that keeps what stands in the first. -/
theorem Leads.kept {landing' : Landing} (h : t.Leads follow links here names landing)
    (hkeeps : t.Keeps t') (hlanding : landing.Becomes t' landing') :
    t'.Leads follow links here names landing' :=
  h.along (fun _ => hkeeps.directory) (fun _ _ => hkeeps.link) hlanding

/-- Files are not needed to find a directory. -/
theorem Leads.without_files {p : Place}
    (h : t'.Leads follow links here names (.there p .directory))
    (hsame : ∀ q e, t'.get? q = some e → t.get? q = some e ∨ ∃ bytes mode, e = .file bytes mode) :
    t.Leads follow links here names (.there p .directory) := by
  generalize hl : Landing.there p .directory = landing at h
  induction h with
  | done => exact .done
  | stay _ ih => exact .stay (ih hl)
  | up _ ih => exact .up (ih hl)
  | enter proper found _ ih =>
      exact .enter proper ((hsame _ _ found).resolve_right (by simp)) (ih hl)
  | vacant => cases hl
  | file => cases hl
  | link => cases hl
  | through proper found onward named _ ih =>
      exact .through proper ((hsame _ _ found).resolve_right (by simp)) onward named (ih hl)

end

end Tree

end BlockSieve
