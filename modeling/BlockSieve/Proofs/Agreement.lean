import BlockSieve.Proofs.Replacement

/-!
Disks that agree apart from what stands under some names. As long as neither
the path of a request nor the working directory nor a link leads over one of
these names, both disks answer the request alike, and agree afterwards. So
what stands under names that a run makes no use of neither matters to it nor
is touched by it. Backslashes are left out of all this: a path takes them for
slashes, so that a name with one may be spelled in two ways.
-/

namespace BlockSieve

/-- Every other character of a text is in a piece of it. -/
theorem Text.exists_mem_cutAt {sep c : Char} {t : Text} (hc : c ∈ t) (hne : c ≠ sep) :
    ∃ piece ∈ cutAt sep t, c ∈ piece := by
  induction t with
  | nil => cases hc
  | cons d r ih =>
      unfold cutAt
      split
      · next hd =>
          have hr := (List.mem_cons.mp hc).resolve_left (hd ▸ hne)
          obtain ⟨piece, hpiece, hmem⟩ := ih hr
          exact ⟨piece, List.mem_cons_of_mem _ hpiece, hmem⟩
      · split
        · next hnil => exact absurd hnil (cutAt_ne_nil sep r)
        · next first pieces hcut =>
            rcases List.mem_cons.mp hc with rfl | hc
            · exact ⟨_, List.mem_cons_self .., List.mem_cons_self ..⟩
            · obtain ⟨piece, hpiece, hmem⟩ := ih hc
              rw [hcut] at hpiece
              rcases List.mem_cons.mp hpiece with rfl | hpiece
              · exact ⟨_, List.mem_cons_self .., List.mem_cons_of_mem _ hmem⟩
              · exact ⟨piece, List.mem_cons_of_mem _ hpiece, hmem⟩

/-- Names that a run makes no use of by itself: none of them is a dot or ends as the names of
backups and temporary files do. -/
structure Hidden where
  names : List Text
  dot : ['.'] ∉ names
  backup : ∀ name ∈ names, ¬ ".backup".toList <:+ name
  temporary : ∀ name ∈ names, ¬ ".tmp".toList <:+ name

namespace Hidden

/-- Names that a path spells as they are, without backslashes, and none of them hidden. -/
def Spares (hidden : Hidden) (names : List Text) : Prop :=
  ∀ name ∈ names, (Tree.Plain name ∧ '\\' ∉ name) ∧ name ∉ hidden.names

variable {hidden : Hidden} {xs ys : List Text} {path : Text}

theorem Spares.append (h : hidden.Spares xs) (h' : hidden.Spares ys) : hidden.Spares (xs ++ ys) :=
  List.forall_mem_append.mpr ⟨h, h'⟩

theorem spares_singleton {name : Text} (hplain : Tree.Plain name) (hslash : '\\' ∉ name)
    (h : name ∉ hidden.names) : hidden.Spares [name] :=
  List.forall_mem_singleton.mpr ⟨⟨hplain, hslash⟩, h⟩

theorem spares_dot (hidden : Hidden) : hidden.Spares [['.']] :=
  spares_singleton ⟨by simp, by decide⟩ (by decide) hidden.dot

theorem Spares.of_subset (h : hidden.Spares ys) (hsub : ∀ name ∈ xs, name ∈ ys) :
    hidden.Spares xs :=
  fun name hname => h name (hsub name hname)

theorem Spares.tail {name : Text} (h : hidden.Spares (name :: xs)) : hidden.Spares xs :=
  h.of_subset fun _ => List.mem_cons_of_mem _

theorem Spares.dropLast (h : hidden.Spares xs) : hidden.Spares xs.dropLast :=
  h.of_subset fun _ hname => List.dropLast_subset xs hname

theorem Spares.route (h : hidden.Spares (Tree.namesOf path)) : hidden.Spares (Tree.route path) := by
  unfold Tree.route
  split
  · exact h.append hidden.spares_dot
  · exact h

theorem Spares.backslash_not_mem (h : hidden.Spares (Tree.namesOf path)) : '\\' ∉ path := by
  intro hmem
  obtain ⟨piece, hpiece, hmem⟩ := Text.exists_mem_cutAt hmem (show '\\' ≠ '/' by decide)
  have hname : piece ∈ Tree.namesOf path := by
    refine List.mem_filter.mpr ⟨hpiece, ?_⟩
    simpa using List.ne_nil_of_mem hmem
  exact (h piece hname).1.2 hmem

/-- Where a path leads, at a place that is not hidden. -/
def SparesLanding (hidden : Hidden) : Tree.Landing → Prop
  | .there place _ => hidden.Spares place
  | .vacant directory name => hidden.Spares (directory ++ [name])

end Hidden

/-- The trees have the same at all places that are not hidden, and no link there leads over a
hidden name. -/
structure Tree.Agrees (hidden : Hidden) (t t' : Tree) : Prop where
  same : ∀ p, hidden.Spares p → t'.get? p = t.get? p
  links : ∀ p target, hidden.Spares p → t.get? p = some (.link target) →
    hidden.Spares (Tree.namesOf target)

namespace Tree

variable {hidden : Hidden} {t t' : Tree} {follow : Bool} {links : Nat} {here : Place}
  {names : List Text}

/-- What is found at the next name is the same in both trees. -/
theorem Agrees.next (h : t.Agrees hidden t') {name : Text} {rest : List Text}
    (hhere : hidden.Spares here) (hnames : hidden.Spares (name :: rest)) :
    hidden.Spares (here ++ [name]) ∧ t'.get? (here ++ [name]) = t.get? (here ++ [name]) := by
  have hplace : hidden.Spares (here ++ [name]) := hhere.append (hnames.of_subset (by simp))
  exact ⟨hplace, h.same _ hplace⟩

theorem Agrees.through (h : t.Agrees hidden t') {name target : Text} {rest : List Text}
    (hhere : hidden.Spares here) (hnames : hidden.Spares (name :: rest))
    (hlink : t.get? (here ++ [name]) = some (.link target)) :
    hidden.Spares (if fromRoot target then [] else here) ∧
      hidden.Spares (route target ++ rest) := by
  refine ⟨?_, (h.links _ _ (h.next hhere hnames).1 hlink).route.append
    hnames.tail⟩
  split
  · exact List.forall_mem_nil _
  · exact hhere

theorem Agrees.walk (h : t.Agrees hidden t') (hhere : hidden.Spares here)
    (hnames : hidden.Spares names) :
    t'.walk follow links here names = t.walk follow links here names := by
  fun_induction Tree.walk t follow links here names with
  | case1 => rw [Tree.walk]
  | case2 links here rest ih =>
      rw [Tree.walk, if_pos rfl]
      exact ih hhere hnames.tail
  | case3 links here rest hdot ih =>
      rw [Tree.walk, if_neg hdot, if_pos rfl]
      exact ih hhere.dropLast hnames.tail
  | case4 links here name rest hdot hdots hshort =>
      rw [Tree.walk, if_neg hdot, if_neg hdots, if_pos hshort]
  | case5 links here name hdot hdots hshort hfound =>
      rw [Tree.walk, (h.next hhere hnames).2, hfound]
      simp [hdot, hdots, hshort]
  | case6 links here name rest hdot hdots hshort hfound hmore =>
      rw [Tree.walk, (h.next hhere hnames).2, hfound]
      simp [hdot, hdots, hshort, hmore]
  | case7 links here name rest hdot hdots hshort hfound ih =>
      obtain ⟨hplace, hsame⟩ := h.next hhere hnames
      rw [Tree.walk, hsame, hfound]
      simpa [hdot, hdots, hshort] using ih hplace hnames.tail
  | case8 links here name hdot hdots hshort bytes mode hfound =>
      rw [Tree.walk, (h.next hhere hnames).2, hfound]
      simp [hdot, hdots, hshort]
  | case9 links here name rest hdot hdots hshort bytes mode hfound hmore =>
      rw [Tree.walk, (h.next hhere hnames).2, hfound]
      simp [hdot, hdots, hshort, hmore]
  | case10 links here name rest hdot hdots hshort target hfound hstop =>
      rw [Tree.walk, (h.next hhere hnames).2, hfound]
      simp [hdot, hdots, hshort, hstop]
  | case11 here name rest hdot hdots hshort target hfound honward =>
      rw [Tree.walk, (h.next hhere hnames).2, hfound]
      simp [hdot, hdots, hshort, honward]
  | case12 here name rest hdot hdots hshort honward links hfound =>
      rw [Tree.walk, (h.next hhere hnames).2, hfound]
      simp [hdot, hdots, hshort, honward]
  | case13 here name rest hdot hdots hshort target hfound honward links hnamed ih =>
      obtain ⟨hstart, hroute⟩ := h.through hhere hnames hfound
      rw [Tree.walk, (h.next hhere hnames).2, hfound]
      simpa [hdot, hdots, hshort, honward, hnamed] using ih hstart hroute

/-- Neither does a path lead to a hidden place. -/
theorem Agrees.spares_landing (h : t.Agrees hidden t') {landing : Landing}
    (hleads : t.Leads follow links here names landing) (hhere : hidden.Spares here)
    (hnames : hidden.Spares names) : hidden.SparesLanding landing := by
  induction hleads with
  | done => exact hhere
  | stay _ ih => exact ih hhere hnames.tail
  | up _ ih => exact ih hhere.dropLast hnames.tail
  | enter _ _ _ ih =>
      exact ih (h.next hhere hnames).1 hnames.tail
  | vacant => exact (h.next hhere hnames).1
  | file => exact (h.next hhere hnames).1
  | link => exact (h.next hhere hnames).1
  | through _ found _ _ _ ih =>
      obtain ⟨hstart, hroute⟩ := h.through hhere hnames found
      exact ih hstart hroute

theorem Agrees.put (h : t.Agrees hidden t') {p : Place} {e : Entry} (hp : p ≠ [])
    (he : ∀ target, e = .link target → hidden.Spares (namesOf target)) :
    (t.put p e).Agrees hidden (t'.put p e) where
  same q hq := by
    rw [t.get?_put_of_ne_nil hp, t'.get?_put_of_ne_nil hp, h.same q hq]
  links q target hq hlink := by
    rw [t.get?_put_of_ne_nil hp] at hlink
    split at hlink
    · exact he target (Option.some.inj hlink)
    · exact h.links q target hq hlink

theorem Agrees.erase (h : t.Agrees hidden t') {p : Place} (hp : p ≠ []) :
    (t.erase p).Agrees hidden (t'.erase p) where
  same q hq := by
    rw [t.get?_erase_of_ne_nil hp, t'.get?_erase_of_ne_nil hp, h.same q hq]
  links q target hq hlink := by
    rw [t.get?_erase_of_ne_nil hp] at hlink
    split at hlink
    · cases hlink
    · exact h.links q target hq hlink

end Tree

namespace Disk

/-- The disks agree on all that is not hidden, and neither the working directory nor a link leads
over a hidden name. -/
structure Agrees (hidden : Hidden) (d d' : Disk) : Prop where
  home : d'.home = d.home
  process : d'.process = d.process
  home_spared : hidden.Spares d.home
  tree : d.tree.Agrees hidden d'.tree

variable {hidden : Hidden} {d d' : Disk} {path source target : Text} {follow : Bool}
  {place : Place} {mode : Nat}

namespace Agrees

/-! ### Requests that only look -/

theorem start_spared (h : d.Agrees hidden d') (path : Text) : hidden.Spares (d.start path) := by
  unfold start
  split
  · exact List.forall_mem_nil _
  · exact h.home_spared

theorem locate (h : d.Agrees hidden d') (hpath : hidden.Spares (Tree.namesOf path)) :
    d'.locate follow path = d.locate follow path := by
  unfold Disk.locate
  rw [start_of_home h.home, h.tree.walk (h.start_spared path) hpath.route]

theorem spares_landing (h : d.Agrees hidden d') (hpath : hidden.Spares (Tree.namesOf path))
    {landing : Tree.Landing} (hlocate : d.locate follow path = .ok landing) :
    hidden.SparesLanding landing :=
  h.tree.spares_landing (locate_eq_ok_iff.mp hlocate).2 (h.start_spared path) hpath.route

theorem holder (h : d.Agrees hidden d') (hpath : hidden.Spares (Tree.namesOf path)) :
    d'.holder path = d.holder path := by
  have hfront : hidden.Spares ((Tree.namesOf path).dropLast ++ [['.']]) :=
    hpath.dropLast.append hidden.spares_dot
  unfold Disk.holder
  simp only [start_of_home h.home, h.tree.walk (h.start_spared path) hfront]

theorem spares_holder (h : d.Agrees hidden d') (hpath : hidden.Spares (Tree.namesOf path))
    {directory : Place} {name : Text} (hholder : d.holder path = .ok (directory, some name)) :
    hidden.Spares (directory ++ [name]) := by
  obtain ⟨⟨proper, init, hnames, hleads⟩, -⟩ := names_of_holder hholder
  rw [hnames] at hpath
  have hinit : hidden.Spares (init ++ [['.']]) :=
    (hpath.of_subset fun n hn => List.mem_append_left _ hn).append hidden.spares_dot
  have hdirectory : hidden.Spares directory :=
    h.tree.spares_landing hleads (h.start_spared path) hinit
  exact hdirectory.append (hpath.of_subset fun n hn => List.mem_append_right _ hn)

theorem read (h : d.Agrees hidden d') (hpath : hidden.Spares (Tree.namesOf path)) :
    d'.read path = d.read path := by
  simp only [Disk.read, h.locate hpath]

theorem isDirectory (h : d.Agrees hidden d') (hpath : hidden.Spares (Tree.namesOf path)) :
    d'.isDirectory path = d.isDirectory path := by
  simp only [Disk.isDirectory, h.locate hpath]

theorem isLink (h : d.Agrees hidden d') (hpath : hidden.Spares (Tree.namesOf path)) :
    d'.isLink path = d.isLink path := by
  simp only [Disk.isLink, h.locate hpath]

theorem mode? (h : d.Agrees hidden d') (hpath : hidden.Spares (Tree.namesOf path)) :
    d'.mode? path = d.mode? path := by
  simp only [Disk.mode?, h.locate hpath]

theorem canonical (h : d.Agrees hidden d') (hpath : hidden.Spares (Tree.namesOf path)) :
    d'.canonical path = d.canonical path := by
  simp only [Disk.canonical, h.locate hpath]

theorem checksum (h : d.Agrees hidden d') (hpath : hidden.Spares (Tree.namesOf path)) :
    d'.checksum path = d.checksum path := by
  simp only [Disk.checksum, h.read hpath]

theorem readText (h : d.Agrees hidden d') {p : Path} (hpath : hidden.Spares (Tree.namesOf p.text)) :
    d'.readText p = d.readText p := by
  simp only [Disk.readText, h.read hpath]

theorem spares_canonical (h : d.Agrees hidden d') (hpath : hidden.Spares (Tree.namesOf path))
    (hcanonical : d.canonical path = .ok target) : hidden.Spares (Tree.namesOf target) := by
  unfold Disk.canonical at hcanonical
  split at hcanonical
  · cases hcanonical
  · next place e hlocate =>
      obtain rfl := Except.ok.inj hcanonical
      have hplace : hidden.Spares place := h.spares_landing hpath hlocate
      rwa [namesOf_spell fun name hname => (hplace name hname).1.1]
  · cases hcanonical

/-! ### Requests that write -/

theorem put (h : d.Agrees hidden d') {e : Entry} (hplace : place ≠ [])
    (he : ∀ link, e = .link link → hidden.Spares (Tree.namesOf link)) :
    (d.put place e).Agrees hidden (d'.put place e) :=
  ⟨h.home, h.process, h.home_spared, h.tree.put hplace he⟩

theorem put_file (h : d.Agrees hidden d') (hplace : place ≠ []) (bytes : Bytes) (mode : Nat) :
    (d.put place (.file bytes mode)).Agrees hidden (d'.put place (.file bytes mode)) :=
  h.put hplace fun _ he => nomatch he

/-- What is put at hidden places does not show. -/
theorem of_hidden (hhome : hidden.Spares d.home)
    (hlinks : ∀ p link, hidden.Spares p → d.tree.get? p = some (.link link) →
      hidden.Spares (Tree.namesOf link))
    {p q : Place} (hp : ¬ hidden.Spares p) (hq : ¬ hidden.Spares q) (e f : Entry) :
    (d.put p e).Agrees hidden (d.put q f) := by
  have hne : ∀ {r : Place}, ¬ hidden.Spares r → r ≠ [] := by
    rintro r hr rfl
    exact hr (List.forall_mem_nil _)
  have hget : ∀ {r : Place} (g : Entry), ¬ hidden.Spares r → ∀ x, hidden.Spares x →
      (d.tree.put r g).get? x = d.tree.get? x := by
    rintro r g hr x hx
    have hrx : r ≠ x := fun heq => hr (heq ▸ hx)
    rw [Tree.get?_put_of_ne_nil _ (hne hr), if_neg hrx]
  refine ⟨rfl, rfl, hhome, ⟨fun x hx => ?_, fun x link hx hlink => hlinks x link hx ?_⟩⟩
  · exact (hget f hq x hx).trans (hget e hp x hx).symm
  · exact (hget e hp x hx).symm.trans hlink

end Agrees

/-- Two answers that are the same refusal, or disks that agree. -/
inductive SameAnswer (hidden : Hidden) : Except Cause Disk → Except Cause Disk → Prop
  | refused (cause : Cause) : SameAnswer hidden (.error cause) (.error cause)
  | done {after after' : Disk} (h : after.Agrees hidden after') :
      SameAnswer hidden (.ok after) (.ok after')

theorem SameAnswer.cases {x y : Except Cause Disk} (h : SameAnswer hidden x y) :
    (∃ cause, x = .error cause ∧ y = .error cause) ∨
      ∃ after after', x = .ok after ∧ y = .ok after' ∧ after.Agrees hidden after' := by
  cases h with
  | refused cause => exact .inl ⟨cause, rfl, rfl⟩
  | done h => exact .inr ⟨_, _, rfl, rfl, h⟩

/-- Two replies with the same answer, and disks that agree. -/
inductive SameReply {α : Type} (hidden : Hidden) : α × Disk → α × Disk → Prop
  | intro (answer : α) {after after' : Disk} (h : after.Agrees hidden after') :
      SameReply hidden (answer, after) (answer, after')

theorem SameReply.cases {α : Type} {x y : α × Disk} (h : SameReply hidden x y) :
    ∃ answer after after', x = (answer, after) ∧ y = (answer, after') ∧
      after.Agrees hidden after' := by
  cases h with
  | intro answer h => exact ⟨answer, _, _, rfl, rfl, h⟩

namespace Agrees

theorem makeDirectory (h : d.Agrees hidden d') (hpath : hidden.Spares (Tree.namesOf path)) :
    SameAnswer hidden (d.makeDirectory path) (d'.makeDirectory path) := by
  unfold Disk.makeDirectory
  rw [h.holder hpath]
  cases hholder : d.holder path with
  | error cause => exact .refused cause
  | ok found =>
      obtain ⟨directory, _ | name⟩ := found
      · exact .refused .occupied
      · dsimp only
        rw [h.tree.same _ (h.spares_holder hpath hholder)]
        cases d.tree.get? (directory ++ [name]) with
        | some _ => exact .refused .occupied
        | none => exact .done (h.put (by simp) fun _ he => nomatch he)

theorem openEmpty (h : d.Agrees hidden d') (mode : Nat)
    (hpath : hidden.Spares (Tree.namesOf path)) :
    (∃ cause, d.openEmpty path mode = .error cause ∧ d'.openEmpty path mode = .error cause) ∨
      ∃ place opened opened', d.openEmpty path mode = .ok (place, opened) ∧
        d'.openEmpty path mode = .ok (place, opened') ∧ place ≠ [] ∧ hidden.Spares place ∧
        opened.Agrees hidden opened' := by
  unfold Disk.openEmpty
  rw [h.locate hpath]
  split
  · next cause _ => exact .inl ⟨cause, rfl, rfl⟩
  · next place bytes old hlocate =>
      obtain ⟨hne, -⟩ := filePlace_of_locate hlocate rfl
      exact .inr ⟨place, _, _, rfl, rfl, hne, h.spares_landing hpath hlocate, h.put_file hne [] old⟩
  · exact .inl ⟨_, rfl, rfl⟩
  · exact .inl ⟨_, rfl, rfl⟩
  · next directory name hlocate =>
      have hne : directory ++ [name] ≠ [] := by simp
      exact .inr ⟨_, _, _, rfl, rfl, hne, h.spares_landing hpath hlocate, h.put_file hne [] mode⟩

theorem move (h : d.Agrees hidden d') (hsource : hidden.Spares (Tree.namesOf source))
    (htarget : hidden.Spares (Tree.namesOf target)) :
    SameAnswer hidden (d.move source target) (d'.move source target) := by
  unfold Disk.move
  rw [h.holder hsource, h.holder htarget]
  cases hfrom : d.holder source with
  | error cause => exact .refused cause
  | ok held =>
      cases hto : d.holder target with
      | error cause => exact .refused cause
      | ok held' =>
          obtain ⟨sourceDir, _ | sourceName⟩ := held
          · exact .refused .busy
          obtain ⟨targetDir, _ | targetName⟩ := held'
          · exact .refused .busy
          have hplace := h.spares_holder hsource hfrom
          have hplace' := h.spares_holder htarget hto
          simp only [h.tree.same _ hplace, h.tree.same _ hplace']
          cases hentry : d.tree.get? (sourceDir ++ [sourceName]) with
          | none => exact .refused .notFound
          | some entry =>
              dsimp only
              split
              · exact .refused .notDirectory
              · split
                · exact .refused .isDirectory
                · refine .done ⟨h.home, h.process, h.home_spared, ?_⟩
                  refine (h.tree.erase (by simp)).put (by simp) fun link hlink => ?_
                  exact h.tree.links _ link hplace (hlink ▸ hentry)

theorem remove (h : d.Agrees hidden d') (hpath : hidden.Spares (Tree.namesOf path)) :
    (d.remove path).Agrees hidden (d'.remove path) := by
  unfold Disk.remove
  rw [h.holder hpath]
  split
  · exact ⟨h.home, h.process, h.home_spared, h.tree.erase (by simp)⟩
  · exact h

theorem copy (h : d.Agrees hidden d') (hsource : hidden.Spares (Tree.namesOf source))
    (htarget : hidden.Spares (Tree.namesOf target)) :
    SameAnswer hidden (d.copy source target) (d'.copy source target) := by
  unfold Disk.copy
  rw [h.locate hsource]
  cases hlocate : d.locate true source with
  | error cause => exact .refused cause
  | ok landing =>
      have hplace := h.spares_landing hsource hlocate
      rcases landing with ⟨place, _ | ⟨bytes, mode⟩ | _⟩ | _
      · exact .refused _
      · dsimp only
        rcases h.openEmpty mode htarget with ⟨cause, hopen, hopen'⟩ |
          ⟨copyPlace, opened, opened', hopen, hopen', hne, -, hopened⟩
        · rw [hopen, hopen']
          exact .refused cause
        · simp only [hopen, hopen', hopened.tree.same _ hplace]
          split
          · exact .done (hopened.put_file hne _ mode)
          · exact .refused _
      · exact .refused _
      · exact .refused _

/-- A backup is made of the same bytes, or fails in the same way. -/
theorem backUp (h : d.Agrees hidden d') {p : Path} (hsource : hidden.Spares (Tree.namesOf p.text))
    (hbackup : hidden.Spares (Tree.namesOf p.backup.text)) :
    SameReply hidden (d.backUp p) (d'.backUp p) := by
  unfold Disk.backUp
  rcases (h.copy hsource hbackup).cases with ⟨cause, hcopy, hcopy'⟩ |
    ⟨copied, copied', hcopy, hcopy', hcopied⟩
  · simp only [hcopy, hcopy']
    exact .intro _ h
  · simp only [hcopy, hcopy', hcopied.checksum hsource, hcopied.checksum hbackup]
    split
    · exact .intro _ hcopied
    · exact .intro _ hcopied
    · split
      · exact .intro _ hcopied
      · exact .intro _ hcopied

/-- A directory that cannot be made may be there already. -/
theorem there_or_refused (h : d.Agrees hidden d') (hpath : hidden.Spares (Tree.namesOf path))
    (cause : Cause) :
    SameReply hidden (if d.isDirectory path then (.ok (), d) else (.error cause, d))
      (if d'.isDirectory path then (.ok (), d') else (Except.error cause, d')) := by
  rw [h.isDirectory hpath]
  split
  · exact .intro _ h
  · exact .intro _ h

theorem makeInnermost (h : d.Agrees hidden d') {paths : List Text}
    (hpaths : ∀ path ∈ paths, hidden.Spares (Tree.namesOf path)) :
    SameReply hidden (d.makeInnermost paths) (d'.makeInnermost paths) := by
  induction paths with
  | nil => exact .intro _ h
  | cons path above ih =>
      obtain ⟨hpath, habove⟩ := List.forall_mem_cons.mp hpaths
      obtain ⟨answer, after, after', hrest, hrest', hafter⟩ := (ih habove).cases
      rw [Disk.makeInnermost, Disk.makeInnermost, hrest, hrest']
      split
      · exact .intro _ h
      · rcases (h.makeDirectory hpath).cases with ⟨cause, hmade, hmade'⟩ |
          ⟨made, made', hmade, hmade', hdone⟩
        · rw [hmade, hmade']
          cases cause
          case notFound =>
            cases answer with
            | error cause => exact .intro _ hafter
            | ok _ =>
                rcases (hafter.makeDirectory hpath).cases with ⟨cause, hmade, hmade'⟩ |
                  ⟨made, made', hmade, hmade', hdone⟩
                · simp only [hmade, hmade']
                  exact hafter.there_or_refused hpath cause
                · simp only [hmade, hmade']
                  exact .intro _ hdone
          all_goals exact h.there_or_refused hpath _
        · rw [hmade, hmade']
          exact .intro _ hdone

end Agrees

end Disk

/-! ### Paths made from a path -/

namespace Component

variable {hidden : Hidden} {x name : Text}

theorem spares_directory? (h : hidden.Spares (Tree.namesOf x)) {directory : Text}
    (hdirectory : directory? x = some directory) : hidden.Spares (Tree.namesOf directory) := by
  obtain ⟨last, j, k, hnames⟩ := above_directory? hdirectory
  exact h.of_subset fun n hn => by simp [hnames, hn]

theorem spares_upwards (h : hidden.Spares (Tree.namesOf x)) :
    ∀ path ∈ upwards x, hidden.Spares (Tree.namesOf path) := by
  induction hn : x.length using Nat.strongRecOn generalizing x with
  | ind n ih =>
      rw [upwards]
      split
      · exact List.forall_mem_singleton.mpr h
      · next directory hdirectory =>
          split
          · next hlt =>
              exact List.forall_mem_cons.mpr
                ⟨h, ih _ (hn ▸ hlt) (spares_directory? h hdirectory) rfl⟩
          · exact List.forall_mem_singleton.mpr h

theorem spares_beside (h : hidden.Spares (Tree.namesOf x)) (hplain : Tree.Plain name)
    (hlast : hidden.Spares [name]) : hidden.Spares (Tree.namesOf (beside x name)) := by
  unfold beside
  split
  · rw [namesOf_within x hplain]
    exact h.append hlast
  · rw [namesOf_within _ hplain]
    cases hdirectory : directory? x with
    | none => exact hlast
    | some directory => exact (spares_directory? h hdirectory).append hlast

end Component

namespace Path

variable {hidden : Hidden} {p : Path}

theorem spares_parent? (h : hidden.Spares (Tree.namesOf p.text)) {parent : Path}
    (hparent : p.parent? = some parent) : hidden.Spares (Tree.namesOf parent.text) := by
  rw [(names_of_parent? hparent).2]
  exact h.dropLast

theorem spares_ofText {t : Text} (h : hidden.Spares (Tree.namesOf t)) :
    hidden.Spares (Tree.namesOf (ofText t).text) := by
  rwa [ofText_of_not_mem h.backslash_not_mem]

theorem spares_backup (h : hidden.Spares (Tree.namesOf p.text)) :
    hidden.Spares (Tree.namesOf p.backup.text) := by
  have hfree : ∀ front : Text, front ++ ".backup".toList ∉ hidden.names := fun front hmem =>
    hidden.backup _ hmem (List.suffix_append ..)
  have hending : Tree.Plain ".backup".toList := ⟨by decide, by decide⟩
  rw [← namesOf_dropSlashes] at h
  have hback := h.backslash_not_mem
  show hidden.Spares (Tree.namesOf (dropSlashes p.text ++ ".backup".toList))
  cases hcut : Text.cutLast '/' (dropSlashes p.text) with
  | none =>
      have hslash := (Text.cutLast_eq_none_iff '/' _).mp hcut
      rw [Tree.namesOf_of_plain (hending.append hslash)]
      exact Hidden.spares_singleton (hending.append hslash) (by simp [hback]) (hfree _)
  | some parts =>
      obtain ⟨before, after⟩ := parts
      obtain ⟨hdrop, hslash⟩ := Text.eq_of_cutLast hcut
      rw [hdrop] at hback
      rw [hdrop, Tree.namesOf_append] at h
      rw [hdrop, List.append_assoc, List.cons_append, Tree.namesOf_append,
        Tree.namesOf_of_plain (hending.append hslash)]
      refine (h.of_subset fun n hn => List.mem_append_left _ hn).append ?_
      have hback' : '\\' ∉ after := fun hmem => hback (by simp [hmem])
      exact Hidden.spares_singleton (hending.append hslash) (by simp [hback']) (hfree _)

end Path

namespace Disk.Agrees

variable {hidden : Hidden} {d d' : Disk} {p : Path} {bytes : Bytes}

theorem resolve (h : d.Agrees hidden d') (hp : hidden.Spares (Tree.namesOf p.text)) :
    d'.resolve p = d.resolve p := by
  simp only [Disk.resolve, h.isLink hp, h.canonical hp]

theorem spares_resolve (h : d.Agrees hidden d') (hp : hidden.Spares (Tree.namesOf p.text))
    {target : Text} (hresolve : d.resolve p = .ok target) :
    hidden.Spares (Tree.namesOf target) := by
  unfold Disk.resolve at hresolve
  split at hresolve
  · split at hresolve
    · next hcanonical =>
        obtain rfl := Except.ok.inj hresolve
        exact h.spares_canonical hp hcanonical
    · cases hresolve
  · obtain rfl := Except.ok.inj hresolve
    exact hp

theorem makeParent (h : d.Agrees hidden d') (hp : hidden.Spares (Tree.namesOf p.text)) :
    SameReply hidden (d.makeParent p) (d'.makeParent p) := by
  unfold Disk.makeParent
  cases hparent : p.parent? with
  | none => exact .intro _ h
  | some parent =>
      have hupwards := Component.spares_upwards (Path.spares_parent? hp hparent)
      obtain ⟨answer, after, after', hmade, hmade', hafter⟩ := (h.makeInnermost hupwards).cases
      simp only [makeDirectories, hmade, hmade']
      cases answer with
      | error cause => exact .intro _ hafter
      | ok _ => exact .intro _ hafter

theorem spares_temporaryName (d : Disk) (hp : hidden.Spares (Tree.namesOf p.text)) :
    hidden.Spares [d.temporaryName p] := by
  have hfree : d.temporaryName p ∉ hidden.names := fun hmem =>
    hidden.temporary _ hmem (d.suffix_temporaryName p)
  have hname : '\\' ∉ p.fileName?.getD [] := by
    rw [Path.fileName?_eq]
    cases hlast : (Tree.namesOf p.text).getLast? with
    | none => simp
    | some name => exact (hp name (List.mem_of_getLast? hlast)).1.2
  exact Hidden.spares_singleton (plain_temporaryName d p)
    (d.not_mem_temporaryName hname rfl (by decide)) hfree

theorem install (h : d.Agrees hidden d') {temporary target : Text}
    (htemporary : hidden.Spares (Tree.namesOf temporary))
    (htarget : hidden.Spares (Tree.namesOf target)) :
    SameReply hidden (d.install temporary target bytes) (d'.install temporary target bytes) := by
  unfold Disk.install
  rw [h.mode? htarget]
  rcases h.openEmpty newFileMode htemporary with ⟨cause, hopen, hopen'⟩ |
    ⟨place, opened, opened', hopen, hopen', hne, hplace, hopened⟩
  · simp only [hopen, hopen']
    exact .intro _ h
  · simp only [hopen, hopen', hopened.mode? htemporary]
    have hwritten := hopened.put_file hne bytes
      ((d.mode? target).getD ((opened.mode? temporary).getD newFileMode))
    rcases (hwritten.move htemporary htarget).cases with ⟨cause, hmove, hmove'⟩ |
      ⟨moved, moved', hmove, hmove', hmoved⟩
    · simp only [hmove, hmove']
      exact .intro _ (hwritten.remove htemporary)
    · simp only [hmove, hmove']
      exact .intro _ hmoved

theorem replace (h : d.Agrees hidden d') (hp : hidden.Spares (Tree.namesOf p.text))
    (bytes : Bytes) : SameReply hidden (d.replace p bytes) (d'.replace p bytes) := by
  unfold Disk.replace
  rw [h.resolve hp]
  cases hresolve : d.resolve p with
  | error fault => exact .intro _ h
  | ok target =>
      have htarget := h.spares_resolve hp hresolve
      have hshown := Path.spares_ofText htarget
      obtain ⟨answer, after, after', hmade, hmade', hafter⟩ := (h.makeParent hshown).cases
      simp only [hmade, hmade']
      cases answer with
      | error fault => exact .intro _ hafter
      | ok _ =>
          have hname : d'.temporaryName (Path.ofText target) =
              d.temporaryName (Path.ofText target) := by
            unfold temporaryName
            rw [h.process]
          dsimp only
          rw [hname]
          exact hafter.install (Component.spares_beside htarget (plain_temporaryName d _)
            (spares_temporaryName d hshown)) htarget

end Disk.Agrees

end BlockSieve
