import BlockSieve.Disk
import BlockSieve.Proofs.Lookup

/-!
The last name of a path and the directory that holds it. A path can be cut
before its last name: what stands before that name leads to a directory, and
what the path leads to is found there under the name, unless a link is. Paths
that spell a place from the root out lead to that place.
-/

namespace BlockSieve

namespace Tree

section

variable {t : Tree} {follow : Bool} {links : Nat} {here : Place} {landing : Landing}

/-- A path can be cut before any of its names. The names before the cut lead to a directory, and
what is taken from there is as if taken after them. -/
theorem Leads.cut {xs ys : List Text} (h : t.Leads follow links here (xs ++ ys) landing)
    (hys : ys ≠ []) :
    ∃ left dir, t.Leads follow left dir ys landing ∧
      ∀ follow' zs landing', zs ≠ [] → t.Leads follow' left dir zs landing' →
        t.Leads follow' links here (xs ++ zs) landing' := by
  generalize hnames : xs ++ ys = names at h
  induction h generalizing xs with
  | done => simp_all
  | stay tail ih =>
      rcases List.append_eq_cons_iff.mp hnames with ⟨rfl, rfl⟩ | ⟨xs, rfl, rfl⟩
      · exact ⟨_, _, .stay tail, fun _ _ _ _ h => h⟩
      · obtain ⟨left, dir, hlast, hfirst⟩ := ih rfl
        exact ⟨left, dir, hlast, fun f zs l hzs h => .stay (hfirst f zs l hzs h)⟩
  | up tail ih =>
      rcases List.append_eq_cons_iff.mp hnames with ⟨rfl, rfl⟩ | ⟨xs, rfl, rfl⟩
      · exact ⟨_, _, .up tail, fun _ _ _ _ h => h⟩
      · obtain ⟨left, dir, hlast, hfirst⟩ := ih rfl
        exact ⟨left, dir, hlast, fun f zs l hzs h => .up (hfirst f zs l hzs h)⟩
  | enter proper found tail ih =>
      rcases List.append_eq_cons_iff.mp hnames with ⟨rfl, rfl⟩ | ⟨xs, rfl, rfl⟩
      · exact ⟨_, _, .enter proper found tail, fun _ _ _ _ h => h⟩
      · obtain ⟨left, dir, hlast, hfirst⟩ := ih rfl
        exact ⟨left, dir, hlast, fun f zs l hzs h => .enter proper found (hfirst f zs l hzs h)⟩
  | vacant proper found =>
      rcases List.append_eq_cons_iff.mp hnames with ⟨rfl, rfl⟩ | ⟨xs, rfl, hend⟩
      · exact ⟨_, _, .vacant proper found, fun _ _ _ _ h => h⟩
      · exact absurd (List.append_eq_nil_iff.mp hend.symm).2 hys
  | file proper found =>
      rcases List.append_eq_cons_iff.mp hnames with ⟨rfl, rfl⟩ | ⟨xs, rfl, hend⟩
      · exact ⟨_, _, .file proper found, fun _ _ _ _ h => h⟩
      · exact absurd (List.append_eq_nil_iff.mp hend.symm).2 hys
  | link proper found stop =>
      rcases List.append_eq_cons_iff.mp hnames with ⟨rfl, rfl⟩ | ⟨xs, rfl, hend⟩
      · exact ⟨_, _, .link proper found stop, fun _ _ _ _ h => h⟩
      · exact absurd (List.append_eq_nil_iff.mp hend.symm).2 hys
  | through proper found onward named tail ih =>
      -- the names that the link holds come before the cut
      rcases List.append_eq_cons_iff.mp hnames with ⟨rfl, rfl⟩ | ⟨xs, rfl, rfl⟩
      · exact ⟨_, _, .through proper found onward named tail, fun _ _ _ _ h => h⟩
      · obtain ⟨left, dir, hlast, hfirst⟩ := ih (List.append_assoc ..)
        refine ⟨left, dir, hlast, fun f zs l hzs h => .through proper found ?_ named ?_⟩
        · exact fun hend => hzs (List.append_eq_nil_iff.mp hend.1).2
        · have honward := hfirst f zs l hzs h
          rw [List.append_assoc] at honward
          exact honward

/-- What a path leads to is found under its last name, in the directory to which the names before
that one lead. The one exception is a link there. -/
theorem Leads.last {init : List Text} {name : Text}
    (h : t.Leads follow links here (init ++ [name]) landing)
    (hdot : name ≠ ['.']) (hdots : name ≠ ['.', '.']) :
    ∃ dir, Proper name ∧ t.Leads true links here (init ++ [['.']]) (.there dir .directory) ∧
      ((t.get? (dir ++ [name]) = none ∧ landing = .vacant dir name) ∨
        (∃ e, t.get? (dir ++ [name]) = some e ∧ landing = .there (dir ++ [name]) e) ∨
        ∃ target, t.get? (dir ++ [name]) = some (.link target) ∧
          t.Leads false links here (init ++ [name]) (.there (dir ++ [name]) (.link target))) := by
  obtain ⟨left, dir, hlast, hfirst⟩ := h.cut (by simp)
  have hdir := hfirst true [['.']] _ (by simp) (.stay .done)
  cases hlast with
  | stay => exact absurd rfl hdot
  | up => exact absurd rfl hdots
  | enter proper found tail =>
      cases tail
      exact ⟨dir, proper, hdir, .inr (.inl ⟨_, found, rfl⟩)⟩
  | vacant proper found => exact ⟨dir, proper, hdir, .inl ⟨found, rfl⟩⟩
  | file proper found => exact ⟨dir, proper, hdir, .inr (.inl ⟨_, found, rfl⟩)⟩
  | link proper found stop => exact ⟨dir, proper, hdir, .inr (.inl ⟨_, found, rfl⟩)⟩
  | through proper found =>
      refine ⟨dir, proper, hdir, .inr (.inr ⟨_, found, ?_⟩)⟩
      exact hfirst false [name] _ (by simp) (.link proper found rfl)

theorem Leads.last_ne_dots {init : List Text} {name : Text} {p : Place} {bytes : Bytes} {mode : Nat}
    (h : t.Leads follow links here (init ++ [name]) (.there p (.file bytes mode))) :
    name ≠ ['.'] ∧ name ≠ ['.', '.'] := by
  obtain ⟨left, dir, hlast, -⟩ := h.cut (by simp)
  constructor
  · rintro rfl
    cases hlast with
    | stay tail => cases tail
    | file proper => exact proper.ne_dot rfl
    | through proper => exact proper.ne_dot rfl
    | enter proper => exact proper.ne_dot rfl
  · rintro rfl
    cases hlast with
    | up tail => cases tail
    | file proper => exact proper.ne_dots rfl
    | through proper => exact proper.ne_dots rfl
    | enter proper => exact proper.ne_dots rfl

theorem Leads.dotted {init : List Text} {p : Place} {e : Entry}
    (h : t.Leads follow links here (init ++ [['.']]) (.there p e)) : e = .directory := by
  obtain ⟨left, dir, hlast, -⟩ := h.cut (by simp)
  cases hlast with
  | stay tail =>
      cases tail
      rfl
  | file proper => exact absurd rfl proper.ne_dot
  | link proper => exact absurd rfl proper.ne_dot
  | through proper => exact absurd rfl proper.ne_dot
  | enter proper => exact absurd rfl proper.ne_dot

theorem Leads.init {xs ys : List Text} {dir : Place}
    (h : t.Leads true links here (xs ++ ys ++ [['.']]) (.there dir .directory)) :
    ∃ dir', t.Leads true links here (xs ++ [['.']]) (.there dir' .directory) := by
  rw [List.append_assoc] at h
  obtain ⟨left, dir', -, hfirst⟩ := h.cut (by simp)
  exact ⟨dir', hfirst true [['.']] _ (by simp) (.stay .done)⟩

theorem leads_dots {names : List Text} (h : ∀ name ∈ names, name = ['.']) :
    t.Leads follow links here (names ++ [['.']]) (.there here .directory) := by
  induction names with
  | nil => exact .stay .done
  | cons name names ih =>
      obtain rfl := h name (List.mem_cons_self ..)
      exact .stay (ih fun name hname => h name (List.mem_cons_of_mem _ hname))

theorem Leads.stayed (h : t.Leads follow links here (['.'] :: names) landing) :
    t.Leads follow links here names landing := by
  have hwalk := h.walk_eq
  rw [walk, if_pos rfl] at hwalk
  exact leads_of_walk hwalk

theorem Leads.went_up (h : t.Leads follow links here (['.', '.'] :: names) landing) :
    t.Leads follow links here.dropLast names landing := by
  have hwalk := h.walk_eq
  rw [walk, if_neg (by simp), if_pos rfl] at hwalk
  exact leads_of_walk hwalk

theorem Leads.entered {name : Text} {names : List Text}
    (h : t.Leads follow links here (name :: names) landing) (proper : Proper name)
    (found : t.get? (here ++ [name]) = some .directory) :
    t.Leads follow links (here ++ [name]) names landing := by
  cases h with
  | stay => exact absurd rfl proper.ne_dot
  | up => exact absurd rfl proper.ne_dots
  | enter _ _ tail => exact tail
  | vacant _ found' => simp [found] at found'
  | file _ found' => simp [found] at found'
  | link _ found' => simp [found] at found'
  | through _ found' => simp [found] at found'

/-- A path that begins with the name of a link goes on along the link. -/
theorem Leads.passed {name target : Text} {names : List Text}
    (h : t.Leads true links here (name :: names) landing) (proper : Proper name)
    (found : t.get? (here ++ [name]) = some (.link target)) :
    ∃ left, t.Leads true left (if fromRoot target then [] else here) (route target ++ names)
      landing := by
  cases h with
  | stay => exact absurd rfl proper.ne_dot
  | up => exact absurd rfl proper.ne_dots
  | enter _ found' => simp [found] at found'
  | vacant _ found' => simp [found] at found'
  | file _ found' => simp [found] at found'
  | link _ _ stop => cases stop
  | through _ found' _ _ tail =>
      rw [found] at found'
      obtain rfl := Entry.link.inj (Option.some.inj found')
      exact ⟨_, tail⟩

/-- A path on which a file stands ends there. -/
theorem Leads.ended {name : Text} {names : List Text} {bytes : Bytes} {mode : Nat}
    (h : t.Leads follow links here (name :: names) landing) (proper : Proper name)
    (found : t.get? (here ++ [name]) = some (.file bytes mode)) :
    names = [] := by
  cases h with
  | stay => exact absurd rfl proper.ne_dot
  | up => exact absurd rfl proper.ne_dots
  | enter _ found' => simp [found] at found'
  | vacant => rfl
  | file => rfl
  | link => rfl
  | through _ found' => simp [found] at found'

/-- Where a last name leads to a file, the file stands there, or a link that leads to the file. -/
theorem Leads.file_or_link {name : Text} {p : Place} {bytes : Bytes} {mode : Nat}
    (h : t.Leads true links here [name] (.there p (.file bytes mode))) (proper : Proper name) :
    t.get? (here ++ [name]) = some (.file bytes mode) ∨
      ∃ target left, t.get? (here ++ [name]) = some (.link target) ∧
        t.Leads true left (if fromRoot target then [] else here) (route target)
          (.there p (.file bytes mode)) := by
  cases h with
  | stay => exact absurd rfl proper.ne_dot
  | up => exact absurd rfl proper.ne_dots
  | enter _ _ tail => cases tail
  | file _ found => exact .inl found
  | through _ found _ _ tail =>
      rw [List.append_nil] at tail
      exact .inr ⟨_, _, found, tail⟩

/-- From names that lead to a directory, the walk goes on there. -/
theorem Leads.walk_append {xs : List Text} {dir : Place}
    (h : t.Leads true links here (xs ++ [['.']]) (.there dir .directory)) :
    ∃ left, ∀ follow zs, (zs = [] → follow = true) →
      t.walk follow links here (xs ++ zs) = t.walk follow left dir zs := by
  generalize hnames : xs ++ [['.']] = names at h
  generalize hl : Landing.there dir .directory = landing at h
  induction h generalizing xs with
  | done => simp at hnames
  | stay tail ih =>
      rcases List.append_eq_cons_iff.mp hnames with ⟨rfl, hend⟩ | ⟨xs, rfl, rfl⟩
      · obtain rfl := (List.cons.inj hend).2
        cases tail
        cases hl
        exact ⟨_, fun _ _ _ => rfl⟩
      · obtain ⟨left, hwalk⟩ := ih rfl hl
        refine ⟨left, fun follow zs hzs => ?_⟩
        rw [List.cons_append, walk]
        simpa using hwalk follow zs hzs
  | up _ ih =>
      rcases List.append_eq_cons_iff.mp hnames with ⟨rfl, hend⟩ | ⟨xs, rfl, rfl⟩
      · exact absurd (List.cons.inj hend).1 (by simp)
      · obtain ⟨left, hwalk⟩ := ih rfl hl
        refine ⟨left, fun follow zs hzs => ?_⟩
        rw [List.cons_append, walk]
        simpa using hwalk follow zs hzs
  | enter proper found _ ih =>
      rcases List.append_eq_cons_iff.mp hnames with ⟨rfl, hend⟩ | ⟨xs, rfl, rfl⟩
      · exact absurd (List.cons.inj hend).1.symm proper.ne_dot
      · obtain ⟨left, hwalk⟩ := ih rfl hl
        refine ⟨left, fun follow zs hzs => ?_⟩
        rw [List.cons_append, walk]
        simpa [proper.ne_dot, proper.ne_dots, proper.short, found] using hwalk follow zs hzs
  | vacant => cases hl
  | file => cases hl
  | link => cases hl
  | through proper found _ named _ ih =>
      rcases List.append_eq_cons_iff.mp hnames with ⟨rfl, hend⟩ | ⟨xs, rfl, rfl⟩
      · exact absurd (List.cons.inj hend).1.symm proper.ne_dot
      · obtain ⟨left, hwalk⟩ := ih (List.append_assoc ..) hl
        refine ⟨left, fun follow zs hzs => ?_⟩
        have honward : ¬ (xs ++ zs = [] ∧ follow = false) := by
          rintro ⟨hnil, hfollow⟩
          rw [hzs (List.append_eq_nil_iff.mp hnil).2] at hfollow
          cases hfollow
        rw [List.cons_append, walk]
        simp only [proper.ne_dot, proper.ne_dots, proper.short, found, if_false, honward, named,
          Bool.false_eq_true]
        rw [← List.append_assoc]
        exact hwalk follow zs hzs

/-- From names that lead to a directory, a path goes on there. -/
theorem Leads.goes_on {xs : List Text} {dir : Place}
    (h : t.Leads true links here (xs ++ [['.']]) (.there dir .directory)) :
    ∃ left, ∀ follow zs landing, (zs = [] → follow = true) →
      (t.Leads follow links here (xs ++ zs) landing ↔ t.Leads follow left dir zs landing) := by
  obtain ⟨left, hwalk⟩ := h.walk_append
  refine ⟨left, fun follow zs landing hzs => ?_⟩
  rw [← walk_eq_ok_iff, ← walk_eq_ok_iff, hwalk follow zs hzs]

/-- A last name leads where it leads from the directory of the names before it. -/
theorem Leads.to_last {init : List Text} {dir : Place} {name : Text}
    (h : t.Leads true links here (init ++ [['.']]) (.there dir .directory))
    (hlast : ∀ left, t.Leads follow left dir [name] landing) :
    t.Leads follow links here (init ++ [name]) landing := by
  obtain ⟨left, hgo⟩ := h.goes_on
  exact (hgo follow [name] landing (by simp)).mpr (hlast left)

theorem Leads.undotted {xs : List Text} {dir : Place}
    (h : t.Leads true links here (xs ++ [['.']]) (.there dir .directory)) :
    t.Leads true links here xs (.there dir .directory) := by
  obtain ⟨left, hgo⟩ := h.goes_on
  have hend := (hgo true [] (.there dir .directory) fun _ => rfl).mpr .done
  rwa [List.append_nil] at hend

theorem Leads.enter_last {init : List Text} {dir : Place} {name : Text}
    (h : t.Leads true links here (init ++ [['.']]) (.there dir .directory)) (proper : Proper name)
    (found : t.get? (dir ++ [name]) = some .directory) :
    t.Leads true links here (init ++ [name] ++ [['.']]) (.there (dir ++ [name]) .directory) := by
  obtain ⟨left, hgo⟩ := h.goes_on
  rw [List.append_assoc]
  exact (hgo true ([name] ++ [['.']]) _ (by simp)).mpr (.enter proper found (.stay .done))

/-- Dots after names that lead to a directory stay there. -/
theorem Leads.without_dots {init : List Text} {dir : Place} {j : Nat}
    (h : t.Leads true links here (init ++ List.replicate j ['.'] ++ [['.']])
      (.there dir .directory)) :
    t.Leads true links here (init ++ [['.']]) (.there dir .directory) := by
  obtain ⟨dir', hinit⟩ := h.init
  obtain ⟨left, hgo⟩ := hinit.goes_on
  rw [List.append_assoc] at h
  have hdots : t.Leads true left dir' (List.replicate j ['.'] ++ [['.']]) (.there dir' .directory) :=
    leads_dots fun _ => List.eq_of_mem_replicate
  have hsame := ((hgo _ _ _ (by simp)).mp h).unique hdots
  rwa [(Landing.there.inj hsame).1]

theorem Leads.to_file {init : List Text} {dir : Place} {name : Text} {bytes : Bytes} {mode : Nat}
    (h : t.Leads true links here (init ++ [['.']]) (.there dir .directory)) (proper : Proper name)
    (found : t.get? (dir ++ [name]) = some (.file bytes mode)) :
    t.Leads follow links here (init ++ [name]) (.there (dir ++ [name]) (.file bytes mode)) :=
  h.to_last fun _ => .file proper found

end

/-- A name as a path can spell it. -/
def Plain (name : Text) : Prop := name ≠ [] ∧ '/' ∉ name

theorem plain_of_mem_namesOf {path name : Text} (h : name ∈ namesOf path) : Plain name := by
  obtain ⟨hpiece, hne⟩ := List.mem_filter.mp h
  exact ⟨by simpa using hne, Text.not_mem_of_mem_cutAt hpiece⟩

theorem plain_of_mem_route {path name : Text} (h : name ∈ route path) : Plain name := by
  unfold route at h
  split at h
  · rcases List.mem_append.mp h with h | h
    · exact plain_of_mem_namesOf h
    · rw [List.mem_singleton.mp h]
      exact ⟨by simp, by decide⟩
  · exact plain_of_mem_namesOf h

theorem namesOf_append (path rest : Text) :
    namesOf (path ++ '/' :: rest) = namesOf path ++ namesOf rest := by
  simp [namesOf, Text.cutAt_append]

theorem namesOf_of_plain {name : Text} (h : Plain name) : namesOf name = [name] := by
  simp [namesOf, Text.cutAt_of_not_mem h.2, h.1]

theorem Plain.append {front name : Text} (hfront : '/' ∉ front) (h : Plain name) :
    Plain (front ++ name) := by
  refine ⟨by simp [h.1], ?_⟩
  rw [List.mem_append, not_or]
  exact ⟨hfront, h.2⟩

/-- The last name of a path that a text is appended to ends in that text. -/
theorem exists_namesOf_append (path : Text) {suffix : Text} (h : Plain suffix) :
    ∃ init front, namesOf (path ++ suffix) = init ++ [front ++ suffix] := by
  cases hcut : Text.cutLast '/' path with
  | none =>
      have hslash : '/' ∉ path := (Text.cutLast_eq_none_iff '/' path).mp hcut
      exact ⟨[], path, namesOf_of_plain (.append hslash h)⟩
  | some parts =>
      obtain ⟨before, after⟩ := parts
      obtain ⟨rfl, hslash⟩ := Text.eq_of_cutLast hcut
      refine ⟨namesOf before, after, ?_⟩
      rw [List.append_assoc, List.cons_append, namesOf_append,
        namesOf_of_plain (.append hslash h)]

/-- A directory that is there: from the root on, each name on the way to it is that of a
directory. -/
inductive Standing (t : Tree) : Place → Prop
  | root : Standing t []
  | inner {dir name} (above : Standing t dir) (proper : Proper name) (plain : Plain name)
      (found : t.get? (dir ++ [name]) = some .directory) : Standing t (dir ++ [name])

/-- A landing among directories that are there. -/
inductive Landing.Stands (t : Tree) : Landing → Prop
  | directory {dir} (standing : t.Standing dir) : Stands t (.there dir .directory)
  | inside {dir name entry} (standing : t.Standing dir) (proper : Proper name)
      (plain : Plain name) (inner : entry ≠ .directory) : Stands t (.there (dir ++ [name]) entry)
  | vacant {dir name} (standing : t.Standing dir) : Stands t (.vacant dir name)

section

variable {t : Tree} {follow : Bool} {links : Nat} {here dir : Place} {names : List Text}
  {landing : Landing}

theorem Standing.dropLast (h : t.Standing dir) : t.Standing dir.dropLast := by
  cases h with
  | root => exact .root
  | inner above => rwa [List.dropLast_concat]

theorem Standing.nameable (h : t.Standing dir) : ∀ name ∈ dir, Proper name ∧ Plain name := by
  induction h with
  | root => simp
  | inner _ proper plain _ ih =>
      intro name hname
      rcases List.mem_append.mp hname with hname | hname
      · exact ih name hname
      · rw [List.mem_singleton.mp hname]
        exact ⟨proper, plain⟩

/-- What stands among directories that are there can be spelled out. -/
theorem Landing.Stands.nameable {place : Place} {e : Entry} (h : (Landing.there place e).Stands t) :
    t.Standing place.dropLast ∧ ∀ name ∈ place, Proper name ∧ Plain name := by
  cases h with
  | directory standing => exact ⟨standing.dropLast, standing.nameable⟩
  | @inside dir name _ standing proper plain =>
      refine ⟨by rwa [List.dropLast_concat], fun n hn => ?_⟩
      rcases List.mem_append.mp hn with hn | hn
      · exact standing.nameable n hn
      · rw [List.mem_singleton.mp hn]
        exact ⟨proper, plain⟩

/-- What is taken from a directory that is there can be taken from the root. -/
theorem Standing.leads (h : t.Standing dir) {landing : Landing}
    (hlast : t.Leads follow links dir names landing) :
    t.Leads follow links [] (dir ++ names) landing := by
  induction h generalizing names with
  | root => exact hlast
  | inner _ proper _ found ih =>
      rw [List.append_assoc]
      exact ih (.enter proper found hlast)

theorem Standing.kept {t' : Tree} (h : t.Standing dir) (hkeeps : t.Keeps t') :
    t'.Standing dir := by
  induction h with
  | root => exact .root
  | inner _ proper plain found ih => exact .inner ih proper plain (hkeeps.directory found)

/-- From a directory that is there, a path stays among directories that are there. -/
theorem Leads.stands (h : t.Leads follow links here names landing) (hhere : t.Standing here)
    (hnames : ∀ name ∈ names, Plain name) : landing.Stands t := by
  induction h with
  | done => exact .directory hhere
  | stay _ ih => exact ih hhere fun name h => hnames name (List.mem_cons_of_mem _ h)
  | up _ ih => exact ih hhere.dropLast fun name h => hnames name (List.mem_cons_of_mem _ h)
  | enter proper found _ ih =>
      have hentered := hhere.inner proper (hnames _ (List.mem_cons_self ..)) found
      exact ih hentered fun name h => hnames name (List.mem_cons_of_mem _ h)
  | vacant => exact .vacant hhere
  | file proper => exact .inside hhere proper (hnames _ (List.mem_cons_self ..)) (by simp)
  | link proper => exact .inside hhere proper (hnames _ (List.mem_cons_self ..)) (by simp)
  | @through _ here _ rest target _ _ _ _ _ _ ih =>
      refine ih ?_ ?_
      · split
        · exact .root
        · exact hhere
      · intro name hname
        rcases List.mem_append.mp hname with hname | hname
        · exact plain_of_mem_route hname
        · exact hnames name (List.mem_cons_of_mem _ hname)

end

end Tree

namespace Disk

theorem namesOf_spell {place : Place} (h : ∀ name ∈ place, Tree.Plain name) :
    Tree.namesOf (spell place) = place := by
  by_cases hne : place = []
  · rw [hne]
    rfl
  · have hcut : Text.cutAt '/' (Text.joinBy '/' place) = place :=
      Text.cutAt_joinBy hne fun name hname => (h name hname).2
    have hfree : place.filter (· ≠ []) = place := by
      rw [List.filter_eq_self]
      exact fun name hname => by simpa using (h name hname).1
    calc
      Tree.namesOf (spell place) = (Text.cutAt '/' (Text.joinBy '/' place)).filter (· ≠ []) := by
        simp [Tree.namesOf, spell, Text.cutAt]
      _ = place := by rw [hcut, hfree]

variable {d d' : Disk} {follow : Bool} {path : Text} {landing : Tree.Landing} {dir : Place}
  {name : Text}

theorem locate_eq_ok_iff :
    d.locate follow path = .ok landing ↔
      refusal? path = none ∧
        d.tree.Leads follow Tree.linkLimit (d.start path) (Tree.route path) landing := by
  unfold locate
  cases refusal? path with
  | none => simp [Tree.walk_eq_ok_iff]
  | some cause => simp

theorem found_of_locate {p : Place} {e : Entry} (h : d.locate follow path = .ok (.there p e))
    (he : e ≠ .directory) : d.tree.get? p = some e :=
  (locate_eq_ok_iff.mp h).2.found he

theorem start_of_home (home : d'.home = d.home) (path : Text) : d'.start path = d.start path := by
  unfold Disk.start
  rw [home]

/-- The second disk is where the first was, and its tree keeps what stands in the first. -/
structure Keeps (d d' : Disk) : Prop where
  home : d'.home = d.home
  tree : d.tree.Keeps d'.tree

theorem Keeps.start (h : d.Keeps d') (path : Text) : d'.start path = d.start path :=
  start_of_home h.home path

theorem Keeps.locate {landing' : Tree.Landing} (h : d.Keeps d')
    (hl : d.locate follow path = .ok landing) (hbecomes : landing.Becomes d'.tree landing') :
    d'.locate follow path = .ok landing' := by
  obtain ⟨haccepted, hleads⟩ := locate_eq_ok_iff.mp hl
  refine locate_eq_ok_iff.mpr ⟨haccepted, ?_⟩
  rw [h.start]
  exact hleads.kept h.tree hbecomes

/-- The last name of a path, and the directory to which the names before it lead. -/
structure Names (d : Disk) (path : Text) (dir : Place) (name : Text) : Prop where
  proper : Tree.Proper name
  leads : ∃ init, Tree.namesOf path = init ++ [name] ∧
    d.tree.Leads true Tree.linkLimit (d.start path) (init ++ [['.']]) (.there dir .directory)

theorem Names.kept (h : d.Names path dir name) (hkeeps : d.Keeps d') :
    d'.Names path dir name := by
  obtain ⟨proper, init, hnames, hleads⟩ := h
  refine ⟨proper, init, hnames, ?_⟩
  rw [hkeeps.start]
  exact hleads.kept hkeeps.tree .directory

theorem Names.holder (h : d.Names path dir name) (haccepted : refusal? path = none) :
    d.holder path = .ok (dir, some name) := by
  obtain ⟨proper, init, hnames, hleads⟩ := h
  unfold Disk.holder
  simp only [haccepted, hnames, List.dropLast_concat, hleads.walk_eq, List.getLast?_concat]
  simp [proper.ne_dot, proper.ne_dots, proper.short]

theorem accepted_of_holder {held : Place × Option Text} (h : d.holder path = .ok held) :
    refusal? path = none := by
  unfold Disk.holder at h
  split at h
  · cases h
  · assumption

theorem names_of_holder (h : d.holder path = .ok (dir, some name)) :
    d.Names path dir name ∧ refusal? path = none := by
  have haccepted := accepted_of_holder h
  refine ⟨?_, haccepted⟩
  unfold Disk.holder at h
  simp only [haccepted] at h
  split at h
  · cases h
  · cases h
  · next hwalk =>
      have hdir := Tree.leads_of_walk hwalk
      obtain rfl := hdir.dotted
      split at h
      · cases h
      · next hlast =>
          split at h
          · cases h
          · next hdots =>
              rw [not_or] at hdots
              split at h
              · cases h
              · next hshort =>
                  obtain ⟨rfl, hname⟩ := Prod.mk.inj (Except.ok.inj h)
                  obtain rfl := Option.some.inj hname
                  obtain ⟨init, hinit⟩ := List.getLast?_eq_some_iff.mp hlast
                  rw [hinit, List.dropLast_concat] at hdir
                  exact ⟨⟨hdots.1, hdots.2, by simpa using hshort⟩, init, hinit, hdir⟩

theorem Names.of_holder {dir' : Place} {name' : Text} (h : d.Names path dir name)
    (hholder : d.holder path = .ok (dir', some name')) : dir' = dir ∧ name' = name := by
  rw [h.holder (accepted_of_holder hholder)] at hholder
  simp only [Except.ok.injEq, Prod.mk.injEq, Option.some.injEq] at hholder
  exact ⟨hholder.1.symm, hholder.2.symm⟩

/-- A file at the last name of a path is what the path leads to, unless a slash follows the name. -/
theorem Names.locate {bytes : Bytes} {mode : Nat} (h : d.Names path dir name)
    (haccepted : refusal? path = none) (hslash : path.getLast? ≠ some '/')
    (found : d.tree.get? (dir ++ [name]) = some (.file bytes mode)) :
    d.locate follow path = .ok (.there (dir ++ [name]) (.file bytes mode)) := by
  obtain ⟨proper, init, hnames, hleads⟩ := h
  refine locate_eq_ok_iff.mpr ⟨haccepted, ?_⟩
  rw [Tree.route, if_neg hslash, hnames]
  exact hleads.to_file proper found

/-- What stands at the last name of a path is found there, if a link there is not followed. -/
theorem Names.locate_there {e : Entry} (h : d.Names path dir name) (haccepted : refusal? path = none)
    (hslash : path.getLast? ≠ some '/') (found : d.tree.get? (dir ++ [name]) = some e) :
    d.locate false path = .ok (.there (dir ++ [name]) e) := by
  obtain ⟨proper, init, hnames, hleads⟩ := h
  refine locate_eq_ok_iff.mpr ⟨haccepted, ?_⟩
  rw [Tree.route, if_neg hslash, hnames]
  refine hleads.to_last fun left => ?_
  cases e with
  | directory => exact .enter proper found .done
  | file => exact .file proper found
  | link => exact .link proper found rfl

/-- A free name at the end of a path is where the path leads, unless a slash follows it. -/
theorem Names.locate_vacant (h : d.Names path dir name) (haccepted : refusal? path = none)
    (hslash : path.getLast? ≠ some '/') (hfree : d.tree.get? (dir ++ [name]) = none) :
    d.locate follow path = .ok (.vacant dir name) := by
  obtain ⟨proper, init, hnames, hleads⟩ := h
  refine locate_eq_ok_iff.mpr ⟨haccepted, ?_⟩
  rw [Tree.route, if_neg hslash, hnames]
  exact hleads.to_last fun _ => .vacant proper hfree

/-- What was done to a disk: something at the touched places, and elsewhere nothing but that
directories may have been made. -/
structure Changed (d : Disk) (touched : List Place) (d' : Disk) : Prop where
  home : d'.home = d.home
  process : d'.process = d.process
  elsewhere : ∀ q, q ∉ touched →
    d'.tree.get? q = d.tree.get? q ∨
      (d.tree.get? q = none ∧ d'.tree.get? q = some .directory)

/-- The second disk has what the first has, and nothing else. -/
structure Same (d d' : Disk) : Prop where
  home : d'.home = d.home
  process : d'.process = d.process
  get? : ∀ q, d'.tree.get? q = d.tree.get? q

theorem Same.refl (d : Disk) : d.Same d := ⟨rfl, rfl, fun _ => rfl⟩

theorem Same.changed (h : d.Same d') : d.Changed [] d' :=
  ⟨h.home, h.process, fun q _ => .inl (h.get? q)⟩

theorem Changed.refl (d : Disk) : d.Changed [] d := ⟨rfl, rfl, fun _ _ => .inl rfl⟩

theorem Changed.trans {d'' : Disk} {ps qs : List Place} (h : d.Changed ps d')
    (h' : d'.Changed qs d'') : d.Changed (ps ++ qs) d'' := by
  refine ⟨h'.home.trans h.home, h'.process.trans h.process, fun q hq => ?_⟩
  have hq : q ∉ ps ∧ q ∉ qs := by simpa using hq
  rcases h'.elsewhere q hq.2 with hsame' | ⟨hnone', hmade'⟩
  · rw [hsame']
    exact h.elsewhere q hq.1
  · rcases h.elsewhere q hq.1 with hsame | ⟨_, hmade⟩
    · exact .inr ⟨hsame.symm.trans hnone', hmade'⟩
    · rw [hmade] at hnone'
      cases hnone'

/-- What is not a directory after a change was there before, unless it is at a touched place. -/
theorem Changed.before {touched : List Place} {q : Place} {e : Entry} (h : d.Changed touched d')
    (hq : q ∉ touched) (he : d'.tree.get? q = some e) (hdir : e ≠ .directory) :
    d.tree.get? q = some e := by
  rcases h.elsewhere q hq with hsame | ⟨_, hmade⟩
  · rw [← hsame, he]
  · rw [he] at hmade
    exact absurd (Option.some.inj hmade) hdir

/-- What was there before a change is there after it, unless it was at a touched place. -/
theorem Changed.after {touched : List Place} {q : Place} {e : Entry} (h : d.Changed touched d')
    (hq : q ∉ touched) (he : d.tree.get? q = some e) : d'.tree.get? q = some e := by
  rcases h.elsewhere q hq with hsame | ⟨hnone, _⟩
  · rw [hsame, he]
  · rw [he] at hnone
    cases hnone

theorem Changed.free {touched : List Place} {q : Place} (h : d.Changed touched d')
    (hq : q ∉ touched) (hfree : d'.tree.get? q = none) : d.tree.get? q = none := by
  cases hbefore : d.tree.get? q with
  | none => rfl
  | some e =>
      rw [h.after hq hbefore] at hfree
      cases hfree

/-- A disk keeps what it has if what stood at the touched places has its like there. -/
theorem Changed.keeps {touched : List Place} (h : d.Changed touched d')
    (htouched : ∀ q ∈ touched, ∀ e, d.tree.get? q = some e →
      ∃ e', d'.tree.get? q = some e' ∧ e.SameKind e') : d.Keeps d' := by
  refine ⟨h.home, fun q e he => ?_⟩
  by_cases hq : q ∈ touched
  · exact htouched q hq e he
  · exact ⟨e, h.after hq he, .refl e⟩

/-- A file at the touched place keeps all others, and all links and directories. -/
theorem Changed.keeps_file {place : Place} {old bytes : Bytes} {mode mode' : Nat}
    (h : d.Changed [place] d')
    (hold : d.tree.get? place = some (.file old mode))
    (hnew : d'.tree.get? place = some (.file bytes mode')) : d.Keeps d' := by
  refine h.keeps fun q hq e he => ?_
  obtain rfl := List.mem_singleton.mp hq
  rw [hold] at he
  obtain rfl := Option.some.inj he
  exact ⟨_, hnew, .file ..⟩

end Disk

end BlockSieve
