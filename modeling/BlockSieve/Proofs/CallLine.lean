import BlockSieve.Boundary.Call
import BlockSieve.Comment
import BlockSieve.Proofs.Segmentation
import Mathlib.Data.List.Basic
import Mathlib.Data.List.TakeWhile

/-!
What lines hold of calls. An argument is what follows a callee and its opening
parenthesis; it gives a name if it begins with a quoted one, and it hands over
to a later line if it is blank. A comment mark before a line adds no call and
takes none away, but a line behind such a mark begins with no name, so a call
that hands over to it opens nothing.
-/

namespace BlockSieve.Call

open Text (blank isBlank)

/-! ### Arguments -/

theorem argumentsIn_of_after? {callee t rest : Text}
    (h : Text.after? (callee ++ ['(']) t = some rest) :
    argumentsIn callee t = rest :: argumentsIn callee rest := by
  cases t with
  | nil =>
      have hnil := (Text.after?_eq_some_iff _ _ _).mp h
      simp at hnil
  | cons c r =>
      rw [argumentsIn]
      split
      · next hsome => rw [h, Option.some.injEq] at hsome; rw [hsome]
      · next hnone => rw [h] at hnone; cases hnone

theorem argumentsIn_of_after?_eq_none {callee r : Text} {c : Char}
    (h : Text.after? (callee ++ ['(']) (c :: r) = none) :
    argumentsIn callee (c :: r) = argumentsIn callee r := by
  rw [argumentsIn]
  split
  · next hsome => rw [h] at hsome; cases hsome
  · rfl

theorem mem_argumentsIn {callee t rest : Text} (h : rest ∈ argumentsIn callee t) :
    ∃ before, t = before ++ callee ++ '(' :: rest := by
  fun_induction argumentsIn callee t with
  | case1 => simp at h
  | case2 c r argument hafter ih =>
      have htext := (Text.after?_eq_some_iff _ _ _).mp hafter
      rcases List.mem_cons.mp h with rfl | h
      · exact ⟨[], by simpa using htext⟩
      · obtain ⟨before, hbefore⟩ := ih h
        refine ⟨callee ++ '(' :: before, ?_⟩
        rw [htext, hbefore]
        simp
  | case3 c r hafter ih =>
      obtain ⟨before, rfl⟩ := ih h
      exact ⟨c :: before, by simp⟩

/-- A text without some character of the call has no argument in it. -/
theorem argumentsIn_of_not_mem {callee t : Text} {c : Char} (hc : c ∈ callee ++ ['('])
    (h : c ∉ t) : argumentsIn callee t = [] := by
  refine List.eq_nil_iff_forall_not_mem.mpr fun rest hrest => h ?_
  obtain ⟨before, rfl⟩ := mem_argumentsIn hrest
  simp only [List.mem_append, List.mem_singleton] at hc
  rcases hc with hc | rfl <;> simp_all

theorem argumentsIn_of_no_call {callee t : Text} (h : ¬ callee ++ ['('] <:+: t) :
    argumentsIn callee t = [] := by
  refine List.eq_nil_iff_forall_not_mem.mpr fun rest hrest => h ?_
  obtain ⟨before, rfl⟩ := mem_argumentsIn hrest
  exact ⟨before, rest, by simp⟩

theorem argumentsIn_of_blank {callee t : Text} (h : blank t = true) :
    argumentsIn callee t = [] := by
  refine argumentsIn_of_not_mem (c := '(') (by simp) fun hmem => ?_
  have : isBlank '(' = true := List.all_eq_true.mp h _ hmem
  revert this
  decide

/-- A line that opens a block is not blank, whatever follows it. -/
theorem blank_eq_false_of_firstName? {callee line : Text} {later : List Line} {name : Name}
    (h : firstName? later (argumentsIn callee line) = some name) : blank line = false := by
  cases hblank : blank line with
  | false => rfl
  | true => simp [argumentsIn_of_blank hblank, firstName?] at h

/-- Characters before a text that no call begins with add no argument. -/
theorem argumentsIn_append {callee lead t : Text} (hne : callee ≠ [])
    (h : ∀ c ∈ lead, callee.head? ≠ some c) :
    argumentsIn callee (lead ++ t) = argumentsIn callee t := by
  induction lead with
  | nil => rfl
  | cons c lead ih =>
      have hafter : Text.after? (callee ++ ['(']) (c :: (lead ++ t)) = none := by
        cases callee with
        | nil => exact absurd rfl hne
        | cons d callee =>
            have hdc : d ≠ c := by simpa using h c (by simp)
            simp [Text.after?, hdc]
      rw [List.cons_append, argumentsIn_of_after?_eq_none hafter]
      exact ih fun d hd => h d (List.mem_cons_of_mem _ hd)

/-- Where no parenthesis opens before a call, the call is the first to be found. -/
theorem argumentsIn_call {callee lead : Text} (hcallee : '(' ∉ callee) (hlead : '(' ∉ lead)
    (rest : Text) :
    argumentsIn callee (lead ++ callee ++ '(' :: rest) = rest :: argumentsIn callee rest := by
  induction lead with
  | nil => exact argumentsIn_of_after? ((Text.after?_eq_some_iff _ _ _).mpr (by simp))
  | cons c lead ih =>
      have hnone : Text.after? (callee ++ ['(']) (c :: (lead ++ callee ++ '(' :: rest)) = none := by
        refine Option.eq_none_iff_forall_ne_some.mpr fun found hfound => ?_
        have htext := (Text.after?_eq_some_iff _ _ _).mp hfound
        -- the first parenthesis stands at different places in the two
        have hbefore : '(' ∉ c :: lead ++ callee := by
          rw [List.mem_append, not_or]
          exact ⟨hlead, hcallee⟩
        have hplace := congrArg (List.idxOf '(') htext
        rw [← List.cons_append, ← List.cons_append, List.idxOf_append_of_notMem hbefore,
          List.append_assoc, List.idxOf_append_of_notMem hcallee] at hplace
        simp at hplace
        omega
      rw [List.cons_append, List.cons_append, argumentsIn_of_after?_eq_none hnone]
      exact ih fun h => hlead (List.mem_cons_of_mem _ h)

/-! ### Names -/

/-- A text begins, white space aside, with a name between two quotation marks. -/
def BeginsWithName (t : Text) (name : Name) : Prop :=
  ∃ white q r after, t = white ++ q :: (name ++ r :: after) ∧ blank white = true ∧
    isQuote q = true ∧ isQuote r = true ∧ name ≠ [] ∧ ∀ c ∈ name, isQuote c = false

theorem beginsWithName_of_leadingName? {t : Text} {name : Name}
    (h : leadingName? t = some name) : BeginsWithName t name := by
  have hsplit : t.takeWhile isBlank ++ Text.trimStart t = t := List.takeWhile_append_dropWhile
  unfold leadingName? at h
  split at h
  · simp at h
  · next q rest htrim =>
      split at h
      · next hq =>
          split at h
          · simp at h
          · simp at h
          · next n ame r after htake hdrop =>
              obtain rfl : n :: ame = name := Option.some.inj h
              refine ⟨t.takeWhile isBlank, q, r, after, ?_, ?_, hq, ?_, by simp, ?_⟩
              · rw [← htake, ← hdrop, List.takeWhile_append_dropWhile, ← htrim, hsplit]
              · exact List.all_eq_true.mpr fun c hc => List.mem_takeWhile_imp hc
              · have := List.head?_dropWhile_not (fun c => !isQuote c) rest
                simpa [hdrop] using this
              · intro c hc
                rw [← htake] at hc
                simpa using List.mem_takeWhile_imp hc
      · simp at h

/-- Quotation marks are no white space. -/
theorem isBlank_of_isQuote {c : Char} (h : isQuote c = true) : isBlank c = false := by
  have hc : c = '"' ∨ c = '\'' := by simpa [isQuote] using h
  rcases hc with rfl | rfl <;> decide

theorem leadingName?_of_beginsWithName {t : Text} {name : Name} (h : BeginsWithName t name) :
    leadingName? t = some name := by
  obtain ⟨white, q, r, after, rfl, hwhite, hq, hr, hne, hname⟩ := h
  have hquote : (!isQuote r) = false := by simp [hr]
  have htrim : Text.trimStart (white ++ q :: (name ++ r :: after)) = q :: (name ++ r :: after) := by
    rw [Text.trimStart, List.dropWhile_append_of_pos (List.all_eq_true.mp hwhite),
      List.dropWhile_cons_of_neg (by simp [isBlank_of_isQuote hq])]
  have hname' : ∀ c ∈ name, (!isQuote c) = true := fun c hc => by simp [hname c hc]
  have htake : (name ++ r :: after).takeWhile (!isQuote ·) = name := by
    rw [List.takeWhile_append_of_pos hname', List.takeWhile_cons_of_neg (by simp [hr]),
      List.append_nil]
  have hdrop : (name ++ r :: after).dropWhile (!isQuote ·) = r :: after := by
    rw [List.dropWhile_append_of_pos hname', List.dropWhile_cons_of_neg (by simp [hr])]
  obtain ⟨n, ame, rfl⟩ := List.exists_cons_of_ne_nil hne
  simp only [leadingName?, htrim, hq, if_true, htake, hdrop]

/-- A line holds a name directly between two quotation marks. -/
def QuotedOn (line : Line) (name : Name) : Prop :=
  ∃ q r, isQuote q = true ∧ isQuote r = true ∧ q :: (name ++ [r]) <:+: line

theorem QuotedOn.mem {line : Line} {name : Name} (h : QuotedOn line name) :
    ∀ c ∈ name, c ∈ line := by
  obtain ⟨q, r, -, -, hinfix⟩ := h
  exact fun c hc => hinfix.subset (by simp [hc])

theorem BeginsWithName.quotedOn {t line : Text} {name : Name} (h : BeginsWithName t name)
    (ht : t <:+: line) : QuotedOn line name := by
  obtain ⟨white, q, r, after, rfl, -, hq, hr, -, -⟩ := h
  exact ⟨q, r, hq, hr, List.IsInfix.trans ⟨white, after, by simp⟩ ht⟩

theorem leadingName?_of_no_quote {t : Text} (h : ∀ c ∈ t, isQuote c = false) :
    leadingName? t = none := by
  cases hname : leadingName? t with
  | none => rfl
  | some name =>
      obtain ⟨white, q, r, after, rfl, -, hq, -⟩ := beginsWithName_of_leadingName? hname
      simp [h q (by simp)] at hq

/-- A line holds a call and its quoted name, with nothing but white space between. -/
def NamedOn (call : Call) (line : Line) (name : Name) : Prop :=
  ∃ before argument, line = before ++ call.callee ++ '(' :: argument ∧ BeginsWithName argument name

theorem NamedOn.length_le {call : Call} {line : Line} {name : Name}
    (h : call.NamedOn line name) : call.callee.length + 4 ≤ line.length := by
  obtain ⟨before, argument, rfl, white, q, r, after, rfl, -, -, -, hname, -⟩ := h
  have hpos : 0 < name.length := List.length_pos_iff.mpr hname
  simp only [List.length_append, List.length_cons]
  omega

theorem leadingName?_of_not_namedOn {call : Call} {line : Line}
    (h : ∀ name, ¬ call.NamedOn line name) {argument : Text}
    (harg : argument ∈ argumentsIn call.callee line) : leadingName? argument = none := by
  cases hname : leadingName? argument with
  | none => rfl
  | some name =>
      obtain ⟨before, hline⟩ := mem_argumentsIn harg
      exact absurd ⟨before, argument, hline, beginsWithName_of_leadingName? hname⟩ (h name)

/-! ### Handing over to a later line -/

/-- The name that the first line that is not blank begins with. -/
def nextName? (later : List Line) : Option Name :=
  (later.find? (!blank ·)).bind leadingName?

theorem nextName?_of_blank {line : Line} (later : List Line) (h : blank line = true) :
    nextName? (line :: later) = nextName? later := by
  simp [nextName?, h]

theorem nextName?_of_not_blank {line : Line} (later : List Line) (h : blank line = false) :
    nextName? (line :: later) = leadingName? line := by
  simp [nextName?, h]

theorem nextName?_of_all_blank {blanks : List Line} (later : List Line)
    (h : ∀ line ∈ blanks, blank line = true) : nextName? (blanks ++ later) = nextName? later := by
  induction blanks with
  | nil => rfl
  | cons line blanks ih =>
      rw [List.cons_append, nextName?_of_blank _ (h line (List.mem_cons_self ..))]
      exact ih fun l hl => h l (List.mem_cons_of_mem _ hl)

/-- An argument that is blank hands over. -/
theorem firstName?_of_blank {argument : Text} (later : List Line) (more : List Text)
    (h : blank argument = true) : firstName? later (argument :: more) = nextName? later := by
  have hnone : leadingName? argument = none := by
    refine leadingName?_of_no_quote fun c hc => ?_
    cases hquote : isQuote c with
    | false => rfl
    | true =>
        have hblank := List.all_eq_true.mp h c hc
        rw [isBlank_of_isQuote hquote] at hblank
        cases hblank
  simp only [firstName?, hnone, h, if_true]
  rfl

/-- What comes after a line that is not blank is not looked at. -/
theorem nextName?_append {lines : List Line} (h : ∃ line ∈ lines, blank line = false)
    (later later' : List Line) : nextName? (lines ++ later) = nextName? (lines ++ later') := by
  obtain ⟨line, hline, hblank⟩ := h
  have hsome : (lines.find? (!blank ·)).isSome := by
    rw [List.find?_isSome]
    exact ⟨line, hline, by simp [hblank]⟩
  obtain ⟨found, hfound⟩ := Option.isSome_iff_exists.mp hsome
  simp [nextName?, List.find?_append, hfound]

/-- The lines after the first count only by the name that they hand over. -/
theorem firstName?_congr {later later' : List Line} (h : nextName? later = nextName? later')
    (arguments : List Text) : firstName? later arguments = firstName? later' arguments := by
  induction arguments with
  | nil => rfl
  | cons argument more ih =>
      simp only [firstName?, ih]
      rw [show (later.find? (!blank ·)).bind leadingName? = _ from h]
      rfl

/-- Where no block opens, none opens either if what follows has no name to hand over. -/
theorem firstName?_eq_none_of_nextName? {later : List Line} (h : nextName? later = none)
    {arguments : List Text} {later' : List Line} (hnone : firstName? later' arguments = none) :
    firstName? later arguments = none := by
  induction arguments with
  | nil => rfl
  | cons argument more ih =>
      have hnext : (later.find? (!blank ·)).bind leadingName? = none := h
      simp only [firstName?] at hnone ⊢
      split at hnone
      · simp at hnone
      · split at hnone
        · next hblank => simp [hblank, hnext]
        · next hblank => simpa [hblank] using ih hnone

/-- No block opens where no argument has a name and none is handed over. -/
theorem firstName?_eq_none {later : List Line} {arguments : List Text}
    (harguments : ∀ argument ∈ arguments, leadingName? argument = none)
    (hnext : nextName? later = none) : firstName? later arguments = none := by
  have hempty : firstName? [] arguments = none := by
    induction arguments with
    | nil => rfl
    | cons argument more ih =>
        simp [firstName?, harguments argument (by simp),
          ih fun a ha => harguments a (List.mem_cons_of_mem _ ha)]
  exact firstName?_eq_none_of_nextName? hnext hempty

theorem exists_leadingName?_of_firstName? {later : List Line} {arguments : List Text} {name : Name}
    (h : firstName? later arguments = some name) :
    ∃ t, leadingName? t = some name ∧ (t ∈ arguments ∨ t ∈ later) := by
  induction arguments with
  | nil => simp [firstName?] at h
  | cons argument more ih =>
      simp only [firstName?] at h
      split at h
      · next n hn => exact ⟨argument, hn.trans h, .inl (List.mem_cons_self ..)⟩
      · split at h
        · obtain ⟨found, hfound, hn⟩ := Option.bind_eq_some_iff.mp h
          exact ⟨found, hn, .inr (List.mem_of_find?_eq_some hfound)⟩
        · obtain ⟨t, ht, hmem⟩ := ih h
          exact ⟨t, ht, hmem.imp_left (List.mem_cons_of_mem _)⟩

/-- A block's name is not empty and holds no quotation mark, and it stands between two such marks on
the line that opens the block or on a later one. -/
theorem exists_quotedOn_of_firstName? {callee line : Text} {later : List Line} {name : Name}
    (h : firstName? later (argumentsIn callee line) = some name) :
    name ≠ [] ∧ (∀ c ∈ name, isQuote c = false) ∧
      ∃ source ∈ line :: later, QuotedOn source name := by
  obtain ⟨t, ht, hsource⟩ := exists_leadingName?_of_firstName? h
  have hname := beginsWithName_of_leadingName? ht
  obtain ⟨_, _, _, _, _, _, _, _, hne, hunquoted⟩ := id hname
  refine ⟨hne, hunquoted, ?_⟩
  rcases hsource with hargument | hlater
  · obtain ⟨before, hline⟩ := mem_argumentsIn hargument
    exact ⟨line, List.mem_cons_self ..,
      hname.quotedOn ⟨before ++ callee ++ ['('], [], by simp [hline]⟩⟩
  · exact ⟨t, List.mem_cons_of_mem _ hlater, hname.quotedOn (List.infix_refl t)⟩

/-! ### Openings and closings by what stands at a line -/

theorem opens_of_drop {call : Call} {doc later : List Line} {i : Nat} {line : Line}
    (h : doc.drop i = line :: later) :
    call.boundary.opens doc i = firstName? later (argumentsIn call.callee line) := by
  simp [boundary, opens, h]

/-- Whether a line closes a block depends on it and on the next line. -/
theorem closes_of_drop {call : Call} {doc later : List Line} {i : Nat} {line : Line}
    (h : doc.drop i = line :: later) :
    call.boundary.closes doc i =
      (decide (Text.trim line = call.close) && later.head?.any blank) := by
  cases later <;> simp [boundary, closes, h]

/-- A line of a stretch and the line after it. -/
theorem exists_drop_of_stretch {doc lines rest : List Line} {i j : Nat}
    (h : doc.drop i = lines ++ rest) (hj : j + 1 < lines.length) :
    ∃ more, doc.drop (i + j) = lines[j] :: lines[j + 1] :: more := by
  refine ⟨lines.drop (j + 2) ++ rest, ?_⟩
  rw [← List.drop_drop, h, List.drop_append_of_le_length (by omega),
    List.drop_eq_getElem_cons (by omega), List.drop_eq_getElem_cons hj]
  rfl

/-- All but the last line of a stretch of lines close a block just as they do in another document
with the same stretch. -/
theorem closes_congr {call : Call} {doc doc' lines rest rest' : List Line} {i i' j : Nat}
    (h : doc.drop i = lines ++ rest) (h' : doc'.drop i' = lines ++ rest')
    (hj : j + 1 < lines.length) :
    call.boundary.closes doc (i + j) = call.boundary.closes doc' (i' + j) := by
  obtain ⟨more, hmore⟩ := exists_drop_of_stretch h hj
  obtain ⟨more', hmore'⟩ := exists_drop_of_stretch h' hj
  rw [closes_of_drop hmore, closes_of_drop hmore']
  rfl

/-- The lines of a block make the same block in another document, if the first of them opens it
there and the same line follows the last. -/
theorem segmented_block {call : Call} {doc doc' rest rest' mid : List Line} {i i' : Nat}
    {name : Name} {first last : Line} {segments : List Segment}
    (here : doc.drop i = first :: (mid ++ last :: rest))
    (here' : doc'.drop i' = first :: (mid ++ last :: rest'))
    (start' : call.boundary.opens doc' i' = some name)
    (inside : ∀ j < mid.length, call.boundary.closes doc (i + 1 + j) = false)
    (stop : call.boundary.closes doc (i + 1 + mid.length) = true)
    (hnext : rest'.head? = rest.head?)
    (tail : call.boundary.Segmented doc' (i' + 1 + mid.length + 1) segments) :
    call.boundary.Segmented doc' i'
      (.closed ⟨name, i' + 1, first :: (mid ++ [last])⟩ :: segments) := by
  have hlines : ∀ r : List Line, mid ++ last :: r = (mid ++ [last]) ++ r := by simp
  refine .closed here' start' ?_ ?_ tail
  · intro j hj
    have hbody := drop_succ_of_drop here
    have hbody' := drop_succ_of_drop here'
    rw [hlines] at hbody hbody'
    rw [closes_congr hbody' hbody (by simpa using hj)]
    exact inside j hj
  · rw [closes_of_drop (drop_add_of_drop (drop_succ_of_drop here))] at stop
    rw [closes_of_drop (drop_add_of_drop (drop_succ_of_drop here')), hnext]
    exact stop

/-- A blank line outside a block is plain. -/
theorem exists_plain_of_blank {call : Call} {doc : List Line} {i : Nat} {line : Line}
    {rest : List Line} {segments : List Segment} (h : call.boundary.Segmented doc i segments)
    (hdoc : doc.drop i = line :: rest) (hblank : blank line = true) :
    ∃ more, segments = .plain line :: more := by
  have hopens : ∀ name, call.boundary.opens doc i ≠ some name := by
    intro name hname
    rw [opens_of_drop hdoc] at hname
    simp [blank_eq_false_of_firstName? hname] at hblank
  cases h with
  | nil here => simp [hdoc] at here
  | plain here _ _ =>
      obtain ⟨rfl, -⟩ := List.cons.inj (here.symm.trans hdoc)
      exact ⟨_, rfl⟩
  | closed _ start _ _ _ => exact absurd start (hopens _)
  | unclosed _ start _ => exact absurd start (hopens _)

/-- After a closing line there is a line, and it is blank and plain. -/
theorem exists_plain_of_closes {call : Call} {doc rest : List Line} {i : Nat} {line : Line}
    {segments : List Segment} (hdoc : doc.drop i = line :: rest)
    (hstop : call.boundary.closes doc i = true)
    (h : call.boundary.Segmented doc (i + 1) segments) :
    ∃ next after more, rest = next :: after ∧ blank next = true ∧
      segments = .plain next :: more := by
  rw [closes_of_drop hdoc, Bool.and_eq_true] at hstop
  obtain ⟨-, hnext⟩ := hstop
  cases rest with
  | nil => simp at hnext
  | cons next after =>
      have hblank : blank next = true := by simpa using hnext
      obtain ⟨more, rfl⟩ := exists_plain_of_blank h (drop_succ_of_drop hdoc) hblank
      exact ⟨next, after, more, rfl, hblank, rfl⟩

/-- A closing line is not blank, unless the closing token is empty. -/
theorem blank_eq_false_of_closes {call : Call} (hclose : call.close ≠ []) {doc later : List Line}
    {line : Line} {i : Nat} (hdoc : doc.drop i = line :: later)
    (hstop : call.boundary.closes doc i = true) : blank line = false := by
  rw [closes_of_drop hdoc, Bool.and_eq_true, decide_eq_true_eq] at hstop
  cases hblank : blank line with
  | false => rfl
  | true => exact absurd (hstop.1.symm.trans ((Text.trim_eq_nil_iff line).mpr hblank)) hclose

/-- A block has its name from its own lines, if the last of them is not blank. -/
theorem opens_of_drop_block {call : Call} {doc mid rest : List Line}
    {i : Nat} {first last : Line} (here : doc.drop i = first :: (mid ++ last :: rest))
    (hlast : blank last = false) :
    call.boundary.opens doc i = firstName? (mid ++ [last]) (argumentsIn call.callee first) := by
  have hlines : mid ++ last :: rest = (mid ++ [last]) ++ rest := by simp
  have hlong : ∃ line ∈ mid ++ [last], blank line = false := ⟨last, by simp, hlast⟩
  rw [opens_of_drop here, hlines, firstName?_congr (nextName?_append hlong rest []),
    List.append_nil]

/-- A block is found again wherever its lines stand, if the line after it is the same there. Only an
empty closing token would let the name stand on a line further down. -/
theorem segmented_kept {call : Call} (hclose : call.close ≠ []) {doc doc' mid rest out : List Line}
    {i i' : Nat} {name : Name} {first last : Line} {segments : List Segment}
    (here : doc.drop i = first :: (mid ++ last :: rest))
    (here' : doc'.drop i' = first :: (mid ++ last :: out))
    (start : call.boundary.opens doc i = some name)
    (inside : ∀ j < mid.length, call.boundary.closes doc (i + 1 + j) = false)
    (stop : call.boundary.closes doc (i + 1 + mid.length) = true)
    (hnext : out.head? = rest.head?)
    (tail : call.boundary.Segmented doc' (i' + 1 + mid.length + 1) segments) :
    call.boundary.Segmented doc' i'
      (.closed ⟨name, i' + 1, first :: (mid ++ [last])⟩ :: segments) := by
  have hlast := blank_eq_false_of_closes hclose (drop_add_of_drop (drop_succ_of_drop here)) stop
  refine segmented_block here here' ?_ inside stop hnext tail
  rw [opens_of_drop_block here' hlast, ← start, opens_of_drop_block here hlast]

/-! ### Lines behind a comment mark -/

@[simp] theorem blank_comment (line : Line) : blank (Comment.comment line) = blank line := by
  unfold Comment.comment
  split
  · next h => simpa [blank] using h.symm
  · next h =>
      have hmark : blank Comment.mark = false := by decide
      have hline : blank line = false := by simpa using h
      simp only [blank, List.all_append] at hmark ⊢
      simp only [blank] at hline
      simp [hmark, hline]

theorem leadingName?_mark (t : Text) : leadingName? (Comment.mark ++ t) = none := rfl

theorem leadingName?_marker (name : Name) : leadingName? (Comment.marker name) = none := rfl

theorem blank_marker (name : Name) : blank (Comment.marker name) = false := rfl

/-- Lines that are commented out hand over no name, unless all of them are blank. -/
theorem nextName?_map_comment {lines : List Line} (h : ∃ line ∈ lines, blank line = false)
    (later : List Line) : nextName? (lines.map Comment.comment ++ later) = none := by
  induction lines with
  | nil => simp at h
  | cons line lines ih =>
      rw [List.map_cons, List.cons_append]
      cases hline : blank line with
      | true =>
          rw [nextName?_of_blank _ (by simpa using hline)]
          exact ih (by simpa [hline] using h)
      | false =>
          rw [nextName?_of_not_blank _ (by simpa using hline)]
          simp [Comment.comment, hline, leadingName?_mark]

/-- A comment mark adds no argument and takes none away, if the callee begins with a character that
the mark does not have. -/
theorem argumentsIn_comment {callee : Text} (hne : callee ≠ [])
    (h : ∀ c ∈ Comment.mark, callee.head? ≠ some c) (line : Line) :
    argumentsIn callee (Comment.comment line) = argumentsIn callee line := by
  unfold Comment.comment
  split
  · next hblank => rw [argumentsIn_of_blank hblank, argumentsIn_of_blank rfl]
  · exact argumentsIn_append hne h

theorem argumentsIn_marker {callee : Text} (hne : callee ≠ [])
    (h : ∀ c ∈ Comment.filteredMark, callee.head? ≠ some c) (name : Name) :
    argumentsIn callee (Comment.marker name) = argumentsIn callee name :=
  argumentsIn_append hne h

end BlockSieve.Call
