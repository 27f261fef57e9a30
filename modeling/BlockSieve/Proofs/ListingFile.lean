import BlockSieve.Proofs.Encoding
import BlockSieve.Proofs.PathParts
import BlockSieve.Proofs.YamlListing
import BlockSieve.Run

/-!
An allow-list in a file. The format is told from the extension of the file's
name, so a listing under any name with an extension for its format is read
back as the names that were listed, in their order. All that a run takes from
such a file are the names; which file it was shows only where there are none,
as the fault then names it.
-/

namespace BlockSieve

open Listing

/-! ### The format of a file -/

/-- Whether a text is a word in letters of either case. -/
def Text.Cased (word t : Text) : Prop := List.Forall₂ (fun c d => d = c ∨ d = c.toUpper) word t

namespace Format

variable {format : Format} {word ext : Text}

/-- The extensions that stand for a format, in small letters. -/
def extensions : Format → List Text
  | .toml => ["toml".toList]
  | .json => ["json".toList]
  | .yaml => ["yaml".toList, "yml".toList]

theorem ofExtension?_extension (h : word ∈ format.extensions) :
    ofExtension? word = some format ∧ word.map Char.toLower = word := by
  revert word
  cases format <;> decide

theorem letters_of_extension (h : word ∈ format.extensions) : word ≠ [] ∧
    ∀ c ∈ word, ∀ d, d = c ∨ d = c.toUpper → d.toLower = c ∧ d ∉ ['.', '/', 'p'] := by
  have hsmall : word ≠ [] ∧ ∀ c ∈ word, c.toLower = c ∧ c ∉ ['.', '/', 'p'] := by
    revert word
    cases format <;> simp [extensions]
  have hcapital : ∀ c ∈ word, c.toUpper.toLower = c ∧ c.toUpper ∉ ['.', '/', 'p'] := by
    revert word
    cases format <;> simp [extensions]
  refine ⟨hsmall.1, ?_⟩
  rintro c hc d (rfl | rfl)
  · exact hsmall.2 d hc
  · exact hcapital c hc

/-- An extension in letters of either case stands for its format. It has no dot or slash in it, and
no letter that the suffix of a backup or of a temporary file ends in. -/
theorem ofExtension?_cased (h : word ∈ format.extensions) (hcased : word.Cased ext) :
    ofExtension? ext = some format ∧ ext ≠ [] ∧ ∀ c ∈ ext, c ∉ ['.', '/', 'p'] := by
  obtain ⟨hne, hletters⟩ := letters_of_extension h
  have hlower : ∀ w e : Text, w.Cased e →
      (∀ c ∈ w, ∀ d, d = c ∨ d = c.toUpper → d.toLower = c ∧ d ∉ ['.', '/', 'p']) →
        e.map Char.toLower = w ∧ ∀ c ∈ e, c ∉ ['.', '/', 'p'] := by
    intro w e hcased hletters
    induction hcased with
    | nil => exact ⟨rfl, List.forall_mem_nil _⟩
    | cons hd _ ih =>
        obtain ⟨hlower, hfree⟩ := hletters _ (List.mem_cons_self ..) _ hd
        obtain ⟨hlowers, hfrees⟩ := ih fun c hc => hletters c (List.mem_cons_of_mem _ hc)
        exact ⟨by rw [List.map_cons, hlower, hlowers], List.forall_mem_cons.mpr ⟨hfree, hfrees⟩⟩
  obtain ⟨hmap, hfree⟩ := hlower word ext hcased hletters
  refine ⟨?_, ?_, hfree⟩
  · obtain ⟨hfound, hself⟩ := ofExtension?_extension h
    rw [← hfound]
    unfold ofExtension?
    rw [hmap, hself]
  · rintro rfl
    exact hne hmap.symm

end Format

/-- A path to a file whose name has an extension for a format, in letters of either case, after a
dot that does not begin it. -/
def Path.NamedFor (p : Path) (format : Format) : Prop :=
  ∃ directory stem ext word, p.text = directory ++ (stem ++ '.' :: ext) ∧
    (directory = [] ∨ directory.getLast? = some '/') ∧ stem ≠ [] ∧ '/' ∉ stem ∧
    word ∈ format.extensions ∧ word.Cased ext

namespace Path

variable {p : Path} {format : Format}

/-- The file name of such a path is its stem with the extension. -/
theorem NamedFor.exists_fileName? (h : p.NamedFor format) :
    ∃ stem ext, p.fileName? = some (stem ++ '.' :: ext) ∧ stem ≠ [] ∧ ext ≠ [] ∧
      (∀ c ∈ ext, c ∉ ['.', '/', 'p']) ∧ Format.ofExtension? ext = some format := by
  obtain ⟨directory, stem, ext, word, htext, hdirectory, hstem, hslash, hword, hcased⟩ := h
  obtain ⟨hformat, hne, hfree⟩ := Format.ofExtension?_cased hword hcased
  refine ⟨stem, ext, ?_, hstem, hne, hfree, hformat⟩
  have hslash' : '/' ∉ ext := fun hmem => hfree _ hmem (by simp)
  have hname : Tree.Plain (stem ++ '.' :: ext) := ⟨by simp, by simp [hslash, hslash']⟩
  have hdrop : dropSlashes p.text = directory ++ (stem ++ '.' :: ext) := by
    rw [htext, dropSlashes_of_plain directory hname]
  rcases hdirectory with rfl | hdirectory
  · rw [List.nil_append] at hdrop
    rw [← hdrop] at hname ⊢
    exact fileName?_of_plain hname
  · obtain ⟨before, rfl⟩ := List.getLast?_eq_some_iff.mp hdirectory
    rw [List.append_assoc] at hdrop
    exact fileName?_of_cutLast (Text.cutLast_eq_some_iff.mpr ⟨hdrop, hname.2⟩)

theorem NamedFor.ofExtension? (h : p.NamedFor format) :
    Format.ofExtension? (p.extension?.getD []) = some format := by
  obtain ⟨stem, ext, hfile, hstem, -, hfree, hformat⟩ := h.exists_fileName?
  have hdot : '.' ∉ ext := fun hmem => hfree _ hmem (by simp)
  have hcut : Text.cutLast '.' (stem ++ '.' :: ext) = some (stem, ext) :=
    Text.cutLast_eq_some_iff.mpr ⟨rfl, hdot⟩
  have hext : p.extension? = some ext := by
    obtain ⟨c, stem, rfl⟩ := List.exists_cons_of_ne_nil hstem
    simp only [extension?, hfile, Option.bind_some, hcut]
  rw [hext]
  exact hformat

/-- The name of such a file is neither a dot nor that of a backup or a temporary file. -/
theorem NamedFor.not_suffix (h : p.NamedFor format) {name : Text}
    (hname : p.fileName? = some name) :
    name ≠ ['.'] ∧ ∀ mark : Text, mark.getLast? = some 'p' → ¬ mark <:+ name := by
  obtain ⟨stem, ext, hfile, hstem, hne, hfree, -⟩ := h.exists_fileName?
  obtain rfl := Option.some.inj (hname.symm.trans hfile)
  refine ⟨fun hdot => ?_, fun mark hmark hsuffix => ?_⟩
  · have hlength := congrArg List.length hdot
    have hpos := List.length_pos_iff.mpr hstem
    simp at hlength
    omega
  · obtain ⟨front, hfront⟩ := hsuffix
    have hlast : (stem ++ '.' :: ext).getLast? = some 'p' := by
      rw [← hfront, List.getLast?_append, hmark]
      rfl
    rw [List.append_cons, List.getLast?_append_of_ne_nil _ hne] at hlast
    exact hfree _ (List.mem_of_getLast? hlast) (by simp)

end Path

/-! ### The names in a file -/

/-- Whether a text names a file on a disk that lists the given names, in a format that its name has
the extension of. -/
def Disk.Lists (d : Disk) (t : Text) (names : List Text) : Prop :=
  ∃ format spacing, (Path.ofText t).NamedFor format ∧
    d.read (Path.ofText t).text = .ok (Utf8.encode (format.listing spacing names))

/-- A listing in any format says what was listed. -/
theorem Format.names?_listing {s : Spacing} {names : List Text} (h : ∀ name ∈ names, name.Printed)
    (format : Format) : format.names? (format.listing s names) = some names := by
  cases format with
  | toml => simp [names?, Toml.read?_listing h, Toml.names?_listed]
  | json => simp [names?, Json.read?_listing h, Json.names?_listed]
  | yaml => simp [names?, Yaml.read?_listing h, Yaml.names?_listed]

/-- The names are loaded as they were listed. -/
theorem Disk.Lists.loadNames {d : Disk} {t : Text} {names : List Text} (h : d.Lists t names)
    (hprinted : ∀ name ∈ names, name.Printed) : d.loadNames (Path.ofText t) = .ok names := by
  obtain ⟨format, spacing, hnamed, hread⟩ := h
  simp only [Disk.loadNames, Disk.readText, hread, Utf8.decode_encode, hnamed.ofExtension?,
    Format.names?_listing hprinted]

end BlockSieve
