import BlockSieve.Disk.Replace
import BlockSieve.Proofs.Backup
import BlockSieve.Proofs.Growth

/-!
Replacing a file is done or not done. If it fails, no file has changed and
none is new, and a temporary file that was made is gone again; if it
succeeds, the file that the path leads to has the new bytes and its old
permission bits, and no other file has changed. All of this needs the name of
the temporary file to be free in the whole tree.
-/

namespace BlockSieve

namespace Tree

/-- Nothing in the tree has the name, and no link leads to it. -/
def Unused (t : Tree) (name : Text) : Prop :=
  ∀ x ∈ t.entries, x.1.getLast? ≠ some name ∧
    ∀ target, x.2 = .link target → (route target).getLast? ≠ some name

theorem Unused.get? {t : Tree} {name : Text} {p : Place} {e : Entry} (h : t.Unused name)
    (he : t.get? p = some e) :
    p.getLast? ≠ some name ∧ ∀ target, e = .link target → (route target).getLast? ≠ some name := by
  unfold Tree.get? at he
  split at he
  · next hp =>
      subst hp
      obtain rfl := Option.some.inj he
      exact ⟨by simp, fun target htarget => by cases htarget⟩
  · exact h _ (mem_of_entryAt he)

end Tree

namespace Disk

variable {d d' : Disk} {path target : Text} {place dir : Place} {name : Text} {bytes : Bytes}
  {mode : Nat}

/-! ### The file that is replaced -/

theorem locate_unfollowed (h : d.locate true path = .ok (.there place (.file bytes mode))) :
    (d.isLink path = false ∧ d.locate false path = .ok (.there place (.file bytes mode))) ∨
      (d.isLink path = true ∧
        ∃ p link, d.locate false path = .ok (.there p (.link link))) := by
  obtain ⟨haccepted, hleads⟩ := locate_eq_ok_iff.mp h
  rcases hleads.unfollowed with hfile | ⟨p, link, hlink⟩
  · have hlocate := locate_eq_ok_iff.mpr ⟨haccepted, hfile⟩
    exact .inl ⟨by simp [isLink, hlocate], hlocate⟩
  · have hlocate := locate_eq_ok_iff.mpr ⟨haccepted, hlink⟩
    exact .inr ⟨by simp [isLink, hlocate], p, link, hlocate⟩

theorem resolve_of_locate {path : Path}
    (h : d.locate true path.text = .ok (.there place (.file bytes mode))) :
    d.resolve path = .ok (if d.isLink path.text then spell place else path.text) := by
  unfold resolve
  by_cases hlink : d.isLink path.text
  · simp [hlink, canonical, h]
  · simp [hlink]

/-- A path that leads to a file is resolved alike on every disk that keeps what is on the first. -/
theorem Keeps.resolve {path : Path} (hkeeps : d.Keeps d')
    (h : d.locate true path.text = .ok (.there place (.file bytes mode))) :
    d'.resolve path = d.resolve path := by
  have hfound : d.tree.get? place = some (.file bytes mode) :=
    found_of_locate h (by simp)
  obtain ⟨bytes', mode', hfound'⟩ := hkeeps.tree.file hfound
  have h' : d'.locate true path.text = .ok (.there place (.file bytes' mode')) :=
    hkeeps.locate h (.there (.file ..) hfound')
  have hlink : d'.isLink path.text = d.isLink path.text := by
    rcases locate_unfollowed h with ⟨hno, hfile⟩ | ⟨hyes, p, link, hat⟩
    · rw [hno, isLink, hkeeps.locate hfile (.there (.file ..) hfound')]
    · have hlinked := found_of_locate hat (by simp)
      rw [hyes, isLink, hkeeps.locate hat (.there (.link link) (hkeeps.tree.link hlinked))]
  rw [resolve_of_locate h, resolve_of_locate h', hlink]

theorem names_of_locate (h : d.locate true path = .ok (.there place (.file bytes mode)))
    (hlink : d.isLink path = false) : ∃ dir name, place = dir ++ [name] ∧ d.Names path dir name := by
  obtain ⟨haccepted, hleads⟩ := locate_eq_ok_iff.mp h
  have hroute : Tree.route path ≠ [] := by
    intro hnil
    rw [hnil] at hleads
    cases hleads
  have hconcat := List.dropLast_concat_getLast hroute
  rw [← hconcat] at hleads
  obtain ⟨hdot, hdots⟩ := hleads.last_ne_dots
  -- a slash at the end would have asked for a directory
  have hslash : path.getLast? ≠ some '/' := by
    intro hslash
    exact hdot (by simp [Tree.route, hslash])
  have hnames : Tree.namesOf path = (Tree.route path).dropLast ++
      [(Tree.route path).getLast hroute] := by
    rw [hconcat, Tree.route, if_neg hslash]
  obtain ⟨dir, proper, hdir, hlast⟩ := hleads.last hdot hdots
  rcases hlast with ⟨_, hvacant⟩ | ⟨e, _, hthere⟩ | ⟨link, _, hat⟩
  · cases hvacant
  · simp only [Tree.Landing.there.injEq] at hthere
    exact ⟨dir, _, hthere.1, proper, _, hnames, hdir⟩
  · rw [hconcat] at hat
    have hyes : d.isLink path = true := by
      rw [isLink, locate_eq_ok_iff.mpr ⟨haccepted, hat⟩]
    rw [hlink] at hyes
    cases hyes

theorem names_spell (hdir : d.tree.Standing dir) (proper : Tree.Proper name)
    (plain : Tree.Plain name) : d.Names (spell (dir ++ [name])) dir name := by
  have hplain : ∀ n ∈ dir ++ [name], Tree.Plain n := by
    intro n hn
    rcases List.mem_append.mp hn with hn | hn
    · exact (hdir.nameable n hn).2
    · rwa [List.mem_singleton.mp hn]
  exact ⟨proper, dir, namesOf_spell hplain, hdir.leads (.stay .done)⟩

/-- The path that a path is resolved to ends in the name of the file. What the path starts from has
to be there, since behind a link the path is spelled anew from the root out. -/
theorem names_of_resolve {path : Path} (hstart : d.tree.Standing (d.start path.text))
    (h : d.locate true path.text = .ok (.there place (.file bytes mode)))
    (hresolve : d.resolve path = .ok target) :
    ∃ dir name, place = dir ++ [name] ∧ d.Names target dir name := by
  rw [resolve_of_locate h] at hresolve
  obtain rfl := Except.ok.inj hresolve
  by_cases hlink : d.isLink path.text = true
  · rw [if_pos hlink]
    have hstands := (locate_eq_ok_iff.mp h).2.stands hstart fun _ => Tree.plain_of_mem_route
    cases hstands with
    | inside hdir proper plain => exact ⟨_, _, rfl, names_spell hdir proper plain⟩
  · have hlink : d.isLink path.text = false := by simpa using hlink
    rw [hlink]
    exact names_of_locate h hlink

/-! ### The temporary file -/

theorem slash_not_mem_fileName? {p : Path} {name : Text} (h : p.fileName? = some name) :
    '/' ∉ name := by
  unfold Path.fileName? at h
  cases hcut : Text.cutLast '/' (Path.dropSlashes p.text) with
  | none =>
      simp only [hcut] at h
      split at h
      · cases h
      · obtain rfl := Option.some.inj h
        exact (Text.cutLast_eq_none_iff '/' _).mp hcut
  | some parts =>
      simp only [hcut] at h
      split at h
      · cases h
      · obtain rfl := Option.some.inj h
        exact (Text.eq_of_cutLast hcut).2

theorem suffix_temporaryName (d : Disk) (p : Path) :
    ".tmp".toList <:+ d.temporaryName p := by
  unfold temporaryName
  exact ⟨_, rfl⟩

/-- All characters of a temporary name are those of the file name, digits, or of the marks
around them. -/
theorem not_mem_temporaryName {c : Char} (d : Disk) {p : Path} (hname : c ∉ p.fileName?.getD [])
    (hdigit : c.isDigit = false) (hmark : c ∉ ".tmp".toList) : c ∉ d.temporaryName p := by
  have hdigits : c ∉ (toString d.process).toList := by
    intro hmem
    rw [Nat.toString_eq_repr, Nat.toList_repr] at hmem
    have hdigit' := Nat.isDigit_of_mem_toDigits (by decide) (by decide) hmem
    simp [hdigit] at hdigit'
  have hdot : c ≠ '.' := fun hc => hmark (hc ▸ List.mem_cons_self ..)
  unfold temporaryName
  simp only [List.mem_append, List.mem_cons, not_or]
  exact ⟨⟨⟨hdot, hname⟩, hdot, hdigits⟩, hmark⟩

theorem plain_temporaryName (d : Disk) (p : Path) : Tree.Plain (d.temporaryName p) := by
  have hname : '/' ∉ p.fileName?.getD [] := by
    cases h : p.fileName? with
    | none => simp
    | some name => exact slash_not_mem_fileName? h
  exact ⟨by simp [temporaryName], d.not_mem_temporaryName hname rfl (by decide)⟩

/-- No file and no link stands at a path; a directory may. -/
def Clear (d : Disk) (path : Text) : Prop :=
  ∀ p e, d.locate false path = .ok (.there p e) → e = .directory

theorem clear_of_unused (hslash : path.getLast? ≠ some '/')
    (hinit : ∃ init, Tree.namesOf path = init ++ [name]) (hdot : name ≠ ['.'])
    (hdots : name ≠ ['.', '.'])
    (hunused : ∀ p e, d.tree.get? p = some e → p.getLast? = some name → e = .directory) :
    d.Clear path := by
  intro p e hlocate
  obtain ⟨-, hleads⟩ := locate_eq_ok_iff.mp hlocate
  obtain ⟨init, hinit⟩ := hinit
  rw [Tree.route, if_neg hslash, hinit] at hleads
  obtain ⟨dir, -, -, hlast⟩ := hleads.last hdot hdots
  rcases hlast with ⟨_, hvacant⟩ | ⟨e', hfound, hthere⟩ | ⟨link, hfound, -⟩
  · cases hvacant
  · obtain ⟨rfl, rfl⟩ := Tree.Landing.there.inj hthere
    exact hunused _ _ hfound List.getLast?_concat
  · cases hunused _ _ hfound List.getLast?_concat

/-- A clear path, if a file can be opened there at all, leads to a name in a directory where that
name is free. -/
theorem Clear.openEmpty (hclear : d.Clear path) (hslash : path.getLast? ≠ some '/')
    (hnames : ∃ init, Tree.namesOf path = init ++ [name]) (hdot : name ≠ ['.'])
    (hdots : name ≠ ['.', '.']) (h : d.openEmpty path mode = .ok (place, d')) :
    ∃ dir, place = dir ++ [name] ∧ d.Names path dir name ∧ refusal? path = none ∧
      d.tree.get? place = none ∧ d' = d.put place (.file [] mode) := by
  obtain ⟨landing, _, hlocate, hplace, _⟩ := openEmpty_eq_ok h
  obtain ⟨haccepted, hleads⟩ := locate_eq_ok_iff.mp hlocate
  obtain ⟨init, hinit⟩ := hnames
  have hroute : Tree.route path = init ++ [name] := by rw [Tree.route, if_neg hslash, hinit]
  rw [hroute] at hleads
  obtain ⟨dir, proper, hdir, hlast⟩ := hleads.last hdot hdots
  rcases hlast with ⟨hnone, rfl⟩ | ⟨e, hfound, rfl⟩ | ⟨link, hfound, hat⟩
  · simp only [Disk.openEmpty, hlocate, Except.ok.injEq, Prod.mk.injEq] at h
    obtain ⟨rfl, rfl⟩ := h
    exact ⟨dir, rfl, ⟨proper, init, hinit, hdir⟩, haccepted, hnone, rfl⟩
  -- a file or a link there would be found by the path with its last link not followed
  · cases e with
    | directory => cases hplace
    | file bytes mode =>
        have hat : d.tree.Leads false _ _ (init ++ [name]) _ := hdir.to_file proper hfound
        rw [← hroute] at hat
        cases hclear _ _ (locate_eq_ok_iff.mpr ⟨haccepted, hat⟩)
    | link => cases hplace
  · rw [← hroute] at hat
    cases hclear _ _ (locate_eq_ok_iff.mpr ⟨haccepted, hat⟩)

theorem move_ok {source : Text} {sourceDir : Place} {sourceName : Text} {e : Entry}
    (hsource : d.holder source = .ok (sourceDir, some sourceName))
    (he : d.tree.get? (sourceDir ++ [sourceName]) = some e)
    (htarget : d.holder target = .ok (dir, some name)) (hslash : target.getLast? ≠ some '/')
    (hdirectory : d.tree.get? (dir ++ [name]) ≠ some .directory) :
    d.move source target = .ok { d with
      tree := (d.tree.erase (sourceDir ++ [sourceName])).put (dir ++ [name]) e } := by
  unfold move
  rw [hsource, htarget]
  simp only [he, if_neg hslash]

/-- Moving what stands at one path over another puts it there, or is refused. -/
theorem move_eq_ok {source : Text} {sourceDir : Place} {sourceName : Text} {e : Entry}
    (hsource : d.holder source = .ok (sourceDir, some sourceName))
    (he : d.tree.get? (sourceDir ++ [sourceName]) = some e) (h : d.move source target = .ok d') :
    ∃ dir name, d.Names target dir name ∧ refusal? target = none ∧
      target.getLast? ≠ some '/' ∧ d.tree.get? (dir ++ [name]) ≠ some .directory ∧
      d' = { d with
        tree := (d.tree.erase (sourceDir ++ [sourceName])).put (dir ++ [name]) e } := by
  unfold move at h
  rw [hsource] at h
  cases htarget : d.holder target with
  | error cause => simp [htarget] at h
  | ok held =>
      obtain ⟨dir, name⟩ := held
      cases name with
      | none => simp [htarget] at h
      | some name =>
          simp only [htarget, he] at h
          split at h
          · cases h
          · next hslash =>
              split at h
              · cases h
              · next hdirectory =>
                  obtain ⟨hnames, haccepted⟩ := names_of_holder htarget
                  exact ⟨dir, name, hnames, haccepted, hslash, hdirectory,
                    (Except.ok.inj h).symm⟩

/-- A temporary file has been written: it is where nothing was, and all else is as before. -/
structure Staged (d : Disk) (temporary : Text) (front : Place) (hidden : Text) (bytes : Bytes)
    (mode : Nat) (d' : Disk) : Prop where
  home : d'.home = d.home
  process : d'.process = d.process
  free : d.tree.get? (front ++ [hidden]) = none
  get? : ∀ q, d'.tree.get? q =
    if front ++ [hidden] = q then some (.file bytes mode) else d.tree.get? q
  names : d.Names temporary front hidden
  accepted : refusal? temporary = none

namespace Staged

variable {temporary : Text} {front : Place} {hidden : Text}

theorem keeps (h : d.Staged temporary front hidden bytes mode d') : d.Keeps d' := by
  refine ⟨h.home, fun q e he => ⟨e, ?_, .refl e⟩⟩
  have hq : front ++ [hidden] ≠ q := by
    rintro rfl
    rw [h.free] at he
    cases he
  rw [h.get?, if_neg hq, he]

theorem holder (h : d.Staged temporary front hidden bytes mode d') :
    d'.holder temporary = .ok (front, some hidden) :=
  (h.names.kept h.keeps).holder h.accepted

/-- What the temporary file is not in the way of was there before it. -/
theorem names_before (h : d.Staged temporary front hidden bytes mode d')
    (hnames : d'.Names path dir name) : d.Names path dir name := by
  obtain ⟨proper, init, hinit, hleads⟩ := hnames
  have hstart : d'.start path = d.start path := h.keeps.start path
  rw [hstart] at hleads
  refine ⟨proper, init, hinit, hleads.without_files fun q e he => ?_⟩
  rw [h.get?] at he
  split at he
  · exact .inr ⟨bytes, mode, (Option.some.inj he).symm⟩
  · exact .inl he

theorem same_remove (h : d.Staged temporary front hidden bytes mode d') :
    d.Same (d'.remove temporary) := by
  unfold remove
  rw [h.holder]
  refine ⟨h.home, h.process, fun q => ?_⟩
  show (d'.tree.erase (front ++ [hidden])).get? q = d.tree.get? q
  rw [Tree.get?_erase_of_ne_nil _ (by simp)]
  by_cases hq : front ++ [hidden] = q
  · rw [if_pos hq, ← hq, h.free]
  · rw [if_neg hq, h.get?, if_neg hq]

/-- Moving the temporary file puts it at the place it is moved to, and does nothing else. -/
theorem get?_moved (h : d.Staged temporary front hidden bytes mode d') {p : Place} (hp : p ≠ [])
    (q : Place) :
    ((d'.tree.erase (front ++ [hidden])).put p (.file bytes mode)).get? q =
      if p = q then some (.file bytes mode) else d.tree.get? q := by
  rw [Tree.get?_put_of_ne_nil _ hp, Tree.get?_erase_of_ne_nil _ (by simp)]
  by_cases hq : front ++ [hidden] = q
  · rw [if_pos hq, ← hq, h.free]
  · rw [if_neg hq, h.get?, if_neg hq]

end Staged

theorem ne_of_ending {hidden : Text} (h : ".tmp".toList <:+ hidden) :
    hidden ≠ ['.'] ∧ hidden ≠ ['.', '.'] ∧ hidden.getLast? ≠ some '/' := by
  have hlength : 4 ≤ hidden.length := h.length_le
  refine ⟨?_, ?_, ?_⟩
  · rintro rfl
    simp at hlength
  · rintro rfl
    simp at hlength
  · obtain ⟨front, rfl⟩ := h
    rw [List.getLast?_append, show ".tmp".toList.getLast? = some 'p' from rfl]
    simp

/-- A file has been put at the last name of a path, and all else is as before. -/
structure Installed (d : Disk) (path : Text) (dir : Place) (name : Text) (bytes : Bytes)
    (d' : Disk) : Prop where
  home : d'.home = d.home
  process : d'.process = d.process
  names : d.Names path dir name
  accepted : refusal? path = none
  no_slash : path.getLast? ≠ some '/'
  not_directory : d.tree.get? (dir ++ [name]) ≠ some .directory
  get? : ∀ q, d'.tree.get? q =
    if dir ++ [name] = q then some (.file bytes ((d.mode? path).getD newFileMode))
    else d.tree.get? q

theorem Installed.changed (h : d.Installed path dir name bytes d') :
    d.Changed [dir ++ [name]] d' := by
  refine ⟨h.home, h.process, fun q hq => .inl ?_⟩
  rw [h.get?, if_neg fun hsame => hq (List.mem_singleton.mpr hsame.symm)]

theorem install_staged {temporary hidden : Text} {front : Place}
    (hnames : d.Names temporary front hidden) (haccepted : refusal? temporary = none)
    (hslash : temporary.getLast? ≠ some '/') (hfree : d.tree.get? (front ++ [hidden]) = none)
    (target : Text) (bytes : Bytes) :
    ∃ written,
      d.Staged temporary front hidden bytes ((d.mode? target).getD newFileMode) written ∧
        (∀ cause, written.move temporary target = .error cause →
          d.install temporary target bytes =
            (.error (.disk target cause), written.remove temporary)) ∧
        ∀ moved, written.move temporary target = .ok moved →
          d.install temporary target bytes = (.ok (), moved) := by
  have hne : front ++ [hidden] ≠ [] := by simp
  have hopened : d.Staged temporary front hidden [] newFileMode
      (d.put (front ++ [hidden]) (.file [] newFileMode)) :=
    ⟨rfl, rfl, hfree, fun q => by rw [put, Tree.get?_put_of_ne_nil _ hne], hnames, haccepted⟩
  have hmode : (d.put (front ++ [hidden]) (.file [] newFileMode)).mode? temporary =
      some newFileMode := by
    have hthere := hopened.get? (front ++ [hidden])
    rw [if_pos rfl] at hthere
    rw [mode?, (hnames.kept hopened.keeps).locate haccepted hslash hthere]
  have hopen : d.openEmpty temporary newFileMode =
      .ok (front ++ [hidden], d.put (front ++ [hidden]) (.file [] newFileMode)) := by
    rw [openEmpty, hnames.locate_vacant haccepted hslash hfree]
  refine ⟨(d.put (front ++ [hidden]) (.file [] newFileMode)).put (front ++ [hidden])
    (.file bytes ((d.mode? target).getD newFileMode)), ?_, fun cause hmove => ?_,
    fun moved hmove => ?_⟩
  · refine ⟨rfl, rfl, hfree, fun q => ?_, hnames, haccepted⟩
    simp only [put, Tree.get?_put_of_ne_nil _ hne]
    split <;> rfl
  · simp only [install, hopen, hmode, Option.getD_some, hmove]
  · simp only [install, hopen, hmode, Option.getD_some, hmove]

/-- Installing a file is done or not done. -/
theorem install_cases {temporary hidden : Text} {result : Except Fault Unit}
    (hclear : d.Clear temporary) (hslash : temporary.getLast? ≠ some '/')
    (hinit : ∃ init, Tree.namesOf temporary = init ++ [hidden]) (hdot : hidden ≠ ['.'])
    (hdots : hidden ≠ ['.', '.']) (h : d.install temporary target bytes = (result, d')) :
    ((∃ fault, result = .error fault) ∧ d.Same d') ∨
      (result = .ok () ∧ ∃ dir name front, d.Installed target dir name bytes d' ∧
        d.Names temporary front hidden ∧ d.tree.get? (front ++ [hidden]) = none) := by
  cases hopen : d.openEmpty temporary newFileMode with
  | error cause =>
      simp only [install, hopen] at h
      obtain ⟨rfl, rfl⟩ := Prod.mk.inj h
      exact .inl ⟨⟨_, rfl⟩, .refl d⟩
  | ok opening =>
      obtain ⟨front, hplace, hnames, haccepted, hfree, -⟩ :=
        hclear.openEmpty hslash hinit hdot hdots hopen
      rw [hplace] at hfree
      obtain ⟨written, hstaged, hrefused, hinstall⟩ :=
        install_staged hnames haccepted hslash hfree target bytes
      cases hmove : written.move temporary target with
      | error cause =>
          rw [hrefused cause hmove] at h
          obtain ⟨rfl, rfl⟩ := Prod.mk.inj h
          exact .inl ⟨⟨_, rfl⟩, hstaged.same_remove⟩
      | ok moved =>
          rw [hinstall moved hmove] at h
          obtain ⟨rfl, rfl⟩ := Prod.mk.inj h
          have hthere := hstaged.get? (front ++ [hidden])
          rw [if_pos rfl] at hthere
          obtain ⟨dir, name, htarget, haccepted', hends, hdirectory, rfl⟩ :=
            move_eq_ok hstaged.holder hthere hmove
          refine .inr ⟨rfl, dir, name, front, ⟨hstaged.home, hstaged.process,
            hstaged.names_before htarget, haccepted', hends, ?_, hstaged.get?_moved (by simp)⟩,
            hnames, hfree⟩
          exact fun hdir => hdirectory (hstaged.keeps.tree.directory hdir)

/-- A file can be installed where no directory is. -/
theorem install_ok {temporary hidden : Text} {front : Place}
    (htemporary : d.Names temporary front hidden) (haccepted : refusal? temporary = none)
    (hslash : temporary.getLast? ≠ some '/') (hfree : d.tree.get? (front ++ [hidden]) = none)
    (htarget : d.Names target dir name) (haccepted' : refusal? target = none)
    (hends : target.getLast? ≠ some '/')
    (hdirectory : d.tree.get? (dir ++ [name]) ≠ some .directory) (bytes : Bytes) :
    ∃ d', d.install temporary target bytes = (.ok (), d') := by
  obtain ⟨written, hstaged, -, hinstall⟩ :=
    install_staged htemporary haccepted hslash hfree target bytes
  have hthere := hstaged.get? (front ++ [hidden])
  rw [if_pos rfl] at hthere
  have hdirectory' : written.tree.get? (dir ++ [name]) ≠ some .directory := by
    rw [hstaged.get?]
    split
    · simp
    · exact hdirectory
  have hholder := (htarget.kept hstaged.keeps).holder haccepted'
  exact ⟨_, hinstall _ (move_ok hstaged.holder hthere hholder hends hdirectory')⟩

/-- Installing a file in the place of another is done or not done. -/
theorem install_over {hidden : Text} {old : Bytes} {result : Except Fault Unit}
    (hnames : d.Names target dir name)
    (hfile : d.tree.get? (dir ++ [name]) = some (.file old mode))
    (hhidden : Tree.Plain hidden) (hending : ".tmp".toList <:+ hidden)
    (hunused : ∀ p e, d.tree.get? p = some e → p.getLast? = some hidden → e = .directory)
    (h : d.install (Component.beside target hidden) target bytes = (result, d')) :
    ((∃ fault, result = .error fault) ∧ d.Changed [] d') ∨
      (result = .ok () ∧ d.Changed [dir ++ [name]] d' ∧
        d'.tree.get? (dir ++ [name]) = some (.file bytes mode)) := by
  obtain ⟨hdot, hdots, hslash⟩ := ne_of_ending hending
  obtain ⟨directory, hbeside⟩ := Component.beside_eq_within target hidden
  have hinit := Component.namesOf_within directory hhidden
  have hlast := Component.getLast?_within directory hhidden
  rw [← hbeside] at hinit hlast
  rw [← hlast] at hslash
  have hclear : d.Clear (Component.beside target hidden) :=
    clear_of_unused hslash ⟨_, hinit⟩ hdot hdots hunused
  rcases install_cases hclear hslash ⟨_, hinit⟩ hdot hdots h with
    ⟨hfault, hsame⟩ | ⟨hdone, dir', name', front, hinstalled, -, -⟩
  · exact .inl ⟨hfault, hsame.changed⟩
  · obtain ⟨rfl, rfl⟩ := hnames.of_holder (hinstalled.names.holder hinstalled.accepted)
    have hmode : d.mode? target = some mode := by
      rw [mode?, hnames.locate hinstalled.accepted hinstalled.no_slash hfile]
    refine .inr ⟨hdone, hinstalled.changed, ?_⟩
    rw [hinstalled.get?, if_pos rfl, hmode, Option.getD_some]

/-- Replacing a file is done or not done. -/
theorem replace_file {path : Path} {old : Bytes} {result : Except Fault Unit}
    (hstart : d.tree.Standing (d.start path.text))
    (hlocate : d.locate true path.text = .ok (.there place (.file old mode)))
    (hunused : ∀ target, d.resolve path = .ok target → ∀ p e, d.tree.get? p = some e →
      p.getLast? = some (d.temporaryName (Path.ofText target)) → e = .directory)
    (h : d.replace path bytes = (result, d')) :
    ((∃ fault, result = .error fault) ∧ d.Changed [] d') ∨
      (result = .ok () ∧ d.Changed [place] d' ∧
        d'.tree.get? place = some (.file bytes mode)) := by
  have hfile : d.tree.get? place = some (.file old mode) :=
    found_of_locate hlocate (by simp)
  unfold replace at h
  split at h
  · obtain ⟨rfl, rfl⟩ := Prod.mk.inj h
    exact .inl ⟨⟨_, rfl⟩, .refl d⟩
  · next target hresolve =>
      obtain ⟨dir, name, rfl, hnames⟩ := names_of_resolve hstart hlocate hresolve
      have hunused := hunused target hresolve
      have hparent := changed_makeParent (d := d) (Path.ofText target)
      dsimp only at h
      split at h
      · next hmade =>
          rw [hmade] at hparent
          obtain ⟨rfl, rfl⟩ := Prod.mk.inj h
          exact .inl ⟨⟨_, rfl⟩, hparent⟩
      · next after hmade =>
          rw [hmade] at hparent
          have hkeeps : d.Keeps after := hparent.keeps (by simp)
          have hunused' : ∀ p e, after.tree.get? p = some e →
              p.getLast? = some (d.temporaryName (Path.ofText target)) → e = .directory := by
            intro p e he hp
            by_cases hdir : e = .directory
            · exact hdir
            · exact hunused p e (hparent.before (by simp) he hdir) hp
          rcases install_over (hnames.kept hkeeps) (hparent.after (by simp) hfile)
            (plain_temporaryName d _) (suffix_temporaryName d _) hunused' h with
            ⟨hfault, hchanged⟩ | ⟨hdone, hchanged, hnew⟩
          · exact .inl ⟨hfault, hparent.trans hchanged⟩
          · exact .inr ⟨hdone, hparent.trans hchanged, hnew⟩

end Disk

end BlockSieve
