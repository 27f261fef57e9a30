import BlockSieve.Proofs.CallLine

/-!
The lines on which a block opens, told without the search that finds them. A
callee without a parenthesis never overlaps itself, so every call on a line is
found. The first call with a name beside it counts; and as only the last call
can have nothing but white space after it, a call that hands over to a later
line hides no other.
-/

namespace BlockSieve.Call

open Text (blank)

/-- A call on a line: `before` stands before the callee, and `argument` after its parenthesis. -/
def CallAt (callee : Text) (line : Line) (before argument : Text) : Prop :=
  line = before ++ callee ++ '(' :: argument

/-- Line `i` opens a block: the first call that has a name beside it gives that name. Where no call
has one, the last call of the line, with nothing but white space after it, takes the name that the
first line below it that is not blank begins with. -/
inductive Starts (call : Call) (doc : List Line) (i : Nat) (name : Name) : Prop
  | beside {line before argument} (here : doc[i]? = some line)
      (at_call : CallAt call.callee line before argument) (named : BeginsWithName argument name)
      (first : ∀ b a n, CallAt call.callee line b a → BeginsWithName a n →
        before.length ≤ b.length) : Starts call doc i name
  | below {line before argument blanks next rest} (here : doc[i]? = some line)
      (unnamed : ∀ b a n, CallAt call.callee line b a → ¬ BeginsWithName a n)
      (at_call : CallAt call.callee line before argument) (bare : blank argument = true)
      (last : ∀ b a, CallAt call.callee line b a → b.length ≤ before.length)
      (later : doc.drop (i + 1) = blanks ++ next :: rest)
      (skipped : ∀ l ∈ blanks, blank l = true) (stops : blank next = false)
      (named : BeginsWithName next name) : Starts call doc i name

variable {callee : Text} {line : Line} {before argument : Text}

/-! ### Every call is found -/

theorem paren_inj {a b r s : Text} (ha : '(' ∉ a) (hb : '(' ∉ b)
    (h : a ++ '(' :: r = b ++ '(' :: s) : a = b ∧ r = s := by
  have hplace := congrArg (List.idxOf '(') h
  rw [List.idxOf_append_of_notMem ha, List.idxOf_append_of_notMem hb] at hplace
  simp only [List.idxOf_cons_self, Nat.add_zero] at hplace
  obtain ⟨hsame, hrest⟩ := List.append_inj h hplace
  exact ⟨hsame, (List.cons.inj hrest).2⟩

/-- After a call that begins its line, the other calls of the line come behind its parenthesis. -/
theorem callAt_call (hcallee : '(' ∉ callee) (rest : Text) :
    CallAt callee (callee ++ '(' :: rest) before argument ↔
      (before = [] ∧ argument = rest) ∨
        ∃ front, before = callee ++ '(' :: front ∧ CallAt callee rest front argument := by
  constructor
  · intro h
    by_cases hbefore : '(' ∈ before
    · obtain ⟨lead, front, rfl, hlead⟩ := List.eq_append_cons_of_mem hbefore
      have h : callee ++ '(' :: rest = lead ++ '(' :: (front ++ callee ++ '(' :: argument) := by
        simpa [CallAt] using h
      obtain ⟨rfl, hrest⟩ := paren_inj hcallee hlead h
      exact .inr ⟨front, rfl, hrest⟩
    · have hfront : '(' ∉ before ++ callee := by
        rw [List.mem_append, not_or]
        exact ⟨hbefore, hcallee⟩
      obtain ⟨hsame, hrest⟩ := paren_inj hcallee hfront h
      exact .inl ⟨List.self_eq_append_left.mp hsame, hrest.symm⟩
  · rintro (⟨rfl, rfl⟩ | ⟨front, rfl, h⟩)
    · rfl
    · unfold CallAt at h ⊢
      rw [h]
      simp

theorem callAt_cons {c : Char} (h : Text.after? (callee ++ ['(']) (c :: line) = none) :
    CallAt callee (c :: line) before argument ↔
      ∃ front, before = c :: front ∧ CallAt callee line front argument := by
  cases before with
  | nil =>
      have hnot : ¬ CallAt callee (c :: line) [] argument := by
        intro hcall
        have hsome := (Text.after?_eq_some_iff (callee ++ ['(']) (c :: line) argument).mpr
          (by simpa [CallAt] using hcall)
        rw [h] at hsome
        cases hsome
      simp [hnot]
  | cons d front => simp [CallAt, and_comm, eq_comm]

/-- The search gives the arguments of all calls of a line, from left to right. -/
theorem exists_calls (hcallee : '(' ∉ callee) (line : Line) :
    ∃ calls : List (Text × Text), argumentsIn callee line = calls.map Prod.snd ∧
      (∀ x, x ∈ calls ↔ CallAt callee line x.1 x.2) ∧
      calls.Pairwise fun x y => x.1.length < y.1.length := by
  fun_induction argumentsIn callee line with
  | case1 => exact ⟨[], rfl, by simp [CallAt], .nil⟩
  | case2 c r rest hafter ih =>
      obtain ⟨calls, hcalls, hmem, hsorted⟩ := ih
      have hline : c :: r = callee ++ '(' :: rest := by
        simpa using (Text.after?_eq_some_iff _ _ _).mp hafter
      refine ⟨([], rest) :: calls.map fun x => (callee ++ '(' :: x.1, x.2), ?_, fun x => ?_, ?_⟩
      · simp [hcalls, Function.comp_def]
      · rw [hline, callAt_call hcallee, List.mem_cons, List.mem_map]
        refine or_congr (by simp [Prod.ext_iff]) ⟨?_, ?_⟩
        · rintro ⟨y, hy, rfl⟩
          exact ⟨y.1, rfl, (hmem y).mp hy⟩
        · rintro ⟨front, hfront, hcall⟩
          exact ⟨(front, x.2), (hmem _).mpr hcall, Prod.ext hfront.symm rfl⟩
      · refine .cons (fun x hx => ?_) (List.pairwise_map.mpr (hsorted.imp ?_))
        · obtain ⟨y, -, rfl⟩ := List.mem_map.mp hx
          exact List.length_pos_iff.mpr (by simp)
        · intro x y hxy
          simpa using hxy
  | case3 c r hafter ih =>
      obtain ⟨calls, hcalls, hmem, hsorted⟩ := ih
      refine ⟨calls.map fun x => (c :: x.1, x.2), ?_, fun x => ?_, ?_⟩
      · simp [hcalls, Function.comp_def]
      · rw [callAt_cons hafter, List.mem_map]
        constructor
        · rintro ⟨y, hy, rfl⟩
          exact ⟨y.1, rfl, (hmem y).mp hy⟩
        · rintro ⟨front, hfront, hcall⟩
          exact ⟨(front, x.2), (hmem _).mpr hcall, Prod.ext hfront.symm rfl⟩
      · refine List.pairwise_map.mpr (hsorted.imp ?_)
        intro x y hxy
        simpa using hxy

/-- What follows a call that is not the last one is not blank. -/
theorem blank_eq_false_of_callAt {before' argument' : Text} (h : CallAt callee line before argument)
    (h' : CallAt callee line before' argument') (hlt : before.length < before'.length) :
    blank argument = false := by
  have hlength := congrArg List.length (h.symm.trans h')
  simp only [List.length_append, List.length_cons] at hlength
  have hsuffix : '(' :: argument' <:+ argument := by
    refine List.suffix_of_suffix_length_le (⟨_, h'.symm⟩ : _ <:+ line) ?_ ?_
    · exact ⟨before ++ callee ++ ['('], by rw [h]; simp⟩
    · simp only [List.length_cons]
      omega
  cases hblank : blank argument with
  | false => rfl
  | true =>
      have hparen := List.all_eq_true.mp hblank '(' (hsuffix.mem (by simp))
      exact absurd hparen (by decide)

/-! ### The call that counts -/

theorem leadingName?_eq_some_iff {t : Text} {name : Name} :
    leadingName? t = some name ↔ BeginsWithName t name :=
  ⟨beginsWithName_of_leadingName?, leadingName?_of_beginsWithName⟩

theorem nextName?_eq_some_iff {later : List Line} {name : Name} :
    nextName? later = some name ↔
      ∃ blanks next rest, later = blanks ++ next :: rest ∧ (∀ l ∈ blanks, blank l = true) ∧
        blank next = false ∧ BeginsWithName next name := by
  simp only [nextName?, Option.bind_eq_some_iff, List.find?_eq_some_iff_append,
    leadingName?_eq_some_iff]
  constructor
  · rintro ⟨next, ⟨hnext, blanks, rest, rfl, hblanks⟩, hname⟩
    exact ⟨blanks, next, rest, rfl, by simpa using hblanks, by simpa using hnext, hname⟩
  · rintro ⟨blanks, next, rest, rfl, hblanks, hnext, hname⟩
    exact ⟨next, ⟨by simpa using hnext, blanks, rest, rfl, by simpa using hblanks⟩, hname⟩

/-- A call counts if it has a name beside it or hands over to a later line. -/
def counts (argument : Text) : Bool := (leadingName? argument).isSome || blank argument

theorem firstName?_eq_find? (later : List Line) (arguments : List Text) :
    firstName? later arguments =
      (arguments.find? counts).bind fun a => (leadingName? a).or (nextName? later) := by
  induction arguments with
  | nil => rfl
  | cons a more ih =>
      cases hname : leadingName? a with
      | some n => simp [firstName?, hname, counts]
      | none =>
          cases hblank : blank a with
          | true => simp [firstName?, hname, hblank, counts, nextName?]
          | false => simp [firstName?, hname, hblank, counts, ih]

/-- In a list that ascends by a key, the first element with a property is the one with the least
key. -/
theorem find?_eq_some_iff_least {α : Type} {l : List α} {p : α → Bool} {key : α → Nat}
    (h : l.Pairwise fun x y => key x < key y) {x : α} :
    l.find? p = some x ↔ x ∈ l ∧ p x = true ∧ ∀ y ∈ l, p y = true → key x ≤ key y := by
  induction l with
  | nil => simp
  | cons z l ih =>
      obtain ⟨hz, hl⟩ := List.pairwise_cons.mp h
      cases hp : p z with
      | true =>
          rw [List.find?_cons_of_pos hp]
          constructor
          · rintro hx
            obtain rfl := Option.some.inj hx
            refine ⟨List.mem_cons_self .., hp, fun y hy _ => ?_⟩
            rcases List.mem_cons.mp hy with rfl | hy
            · exact Nat.le_refl _
            · exact Nat.le_of_lt (hz y hy)
          · rintro ⟨hx, -, hleast⟩
            rcases List.mem_cons.mp hx with rfl | hx
            · rfl
            · have := hz x hx
              have := hleast z (List.mem_cons_self ..) hp
              omega
      | false =>
          rw [List.find?_cons_of_neg (by simp [hp]), ih hl]
          have hne : ∀ y, p y = true → y ≠ z := by
            rintro y hy rfl
            rw [hp] at hy
            cases hy
          constructor
          · rintro ⟨hx, hpx, hleast⟩
            refine ⟨List.mem_cons_of_mem _ hx, hpx, fun y hy hpy => ?_⟩
            exact hleast y ((List.mem_cons.mp hy).resolve_left (hne y hpy)) hpy
          · rintro ⟨hx, hpx, hleast⟩
            refine ⟨(List.mem_cons.mp hx).resolve_left (hne x hpx), hpx, fun y hy hpy => ?_⟩
            exact hleast y (List.mem_cons_of_mem _ hy) hpy

/-- The first call that counts decides. -/
theorem firstName?_argumentsIn_eq_some_iff (hcallee : '(' ∉ callee) {later : List Line}
    {name : Name} :
    firstName? later (argumentsIn callee line) = some name ↔
      ∃ before argument, CallAt callee line before argument ∧ counts argument = true ∧
        (∀ b a, CallAt callee line b a → counts a = true → before.length ≤ b.length) ∧
        (leadingName? argument).or (nextName? later) = some name := by
  obtain ⟨calls, hcalls, hmem, hsorted⟩ := exists_calls hcallee line
  rw [firstName?_eq_find?, hcalls, List.find?_map, Option.bind_map, Option.bind_eq_some_iff]
  simp only [find?_eq_some_iff_least hsorted, Prod.exists, Prod.forall, hmem, Function.comp_def,
    and_assoc]

theorem CallAt.unique {before' argument' : Text} (h : CallAt callee line before argument)
    (h' : CallAt callee line before' argument') (hlength : before.length = before'.length) :
    argument = argument' := by
  obtain ⟨hfront, hrest⟩ := List.append_inj (h.symm.trans h') (by simp [hlength])
  exact (List.cons.inj hrest).2

theorem CallAt.le_of_counts {before' argument' : Text} (h : CallAt callee line before argument)
    (h' : CallAt callee line before' argument') (hcounts : counts argument' = true)
    (hname : leadingName? argument' = none) : before.length ≤ before'.length := by
  rw [counts, hname, Option.isSome_none, Bool.false_or] at hcounts
  refine Nat.le_of_not_lt fun hlt => ?_
  rw [blank_eq_false_of_callAt h' h hlt] at hcounts
  cases hcounts

variable {call : Call} {doc : List Line} {i : Nat} {name : Name}

theorem starts_of_opens (hcallee : '(' ∉ call.callee) (h : call.boundary.opens doc i = some name) :
    call.Starts doc i name := by
  cases hdrop : doc.drop i with
  | nil => simp [boundary, opens, hdrop] at h
  | cons line later =>
      rw [opens_of_drop hdrop, firstName?_argumentsIn_eq_some_iff hcallee] at h
      obtain ⟨before, argument, hcall, hcounts, hfirst, hname⟩ := h
      have here : doc[i]? = some line := by rw [← List.head?_drop, hdrop, List.head?_cons]
      cases hargument : leadingName? argument with
      | some n =>
          rw [hargument, Option.some_or] at hname
          refine .beside here hcall (leadingName?_eq_some_iff.mp (hargument.trans hname)) ?_
          intro b a m hcall' hnamed
          exact hfirst b a hcall' (by simp [counts, leadingName?_eq_some_iff.mpr hnamed])
      | none =>
          rw [hargument, Option.none_or] at hname
          obtain ⟨blanks, next, rest, hlater, hblanks, hnext, hnamed⟩ :=
            nextName?_eq_some_iff.mp hname
          have hlast : ∀ b a, CallAt call.callee line b a → b.length ≤ before.length :=
            fun b a hcall' => hcall'.le_of_counts hcall hcounts hargument
          refine .below here ?_ hcall (by simpa [counts, hargument] using hcounts) hlast
            ((drop_succ_of_drop hdrop).trans hlater) hblanks hnext hnamed
          intro b a m hcall' hnamed'
          have hsome := leadingName?_eq_some_iff.mpr hnamed'
          have hle := hfirst b a hcall' (by simp [counts, hsome])
          rw [← hcall.unique hcall' (Nat.le_antisymm hle (hlast b a hcall')), hargument] at hsome
          cases hsome

theorem opens_of_starts (hcallee : '(' ∉ call.callee) (h : call.Starts doc i name) :
    call.boundary.opens doc i = some name := by
  have hdrop : ∀ {line}, doc[i]? = some line → doc.drop i = line :: doc.drop (i + 1) := by
    intro line hline
    obtain ⟨hi, rfl⟩ := List.getElem?_eq_some_iff.mp hline
    exact List.drop_eq_getElem_cons hi
  cases h with
  | @beside line before argument here at_call named first =>
      rw [opens_of_drop (hdrop here), firstName?_argumentsIn_eq_some_iff hcallee]
      have hname := leadingName?_eq_some_iff.mpr named
      refine ⟨before, argument, at_call, by simp [counts, hname], fun b a hcall hcounts => ?_, ?_⟩
      · cases hargument : leadingName? a with
        | some n => exact first b a n hcall (leadingName?_eq_some_iff.mp hargument)
        | none => exact at_call.le_of_counts hcall hcounts hargument
      · rw [hname, Option.some_or]
  | @below line before argument blanks next rest here unnamed at_call bare last later skipped stops
      named =>
      rw [opens_of_drop (hdrop here), firstName?_argumentsIn_eq_some_iff hcallee]
      have hnone : ∀ b a, CallAt call.callee line b a → leadingName? a = none := by
        intro b a hcall
        refine Option.eq_none_iff_forall_ne_some.mpr fun n hn => ?_
        exact unnamed b a n hcall (leadingName?_eq_some_iff.mp hn)
      refine ⟨before, argument, at_call, by simp [counts, bare], fun b a hcall hcounts => ?_, ?_⟩
      · exact at_call.le_of_counts hcall hcounts (hnone b a hcall)
      · rw [hnone before argument at_call, Option.none_or, nextName?_eq_some_iff]
        exact ⟨blanks, next, rest, later, skipped, stops, named⟩

/-- **A block opens on the lines that start one, and on no others**, for a callee that holds no
parenthesis. On other lines, and past the end of the document, nothing opens. -/
theorem opens_iff_starts {call : Call} (hcallee : '(' ∉ call.callee) (doc : List Line) (i : Nat) :
    (∀ name, call.boundary.opens doc i = some name ↔ call.Starts doc i name) ∧
      (call.boundary.opens doc i = none ↔ ∀ name, ¬ call.Starts doc i name) ∧
      (doc.length ≤ i → call.boundary.opens doc i = none) := by
  have hiff : ∀ name, call.boundary.opens doc i = some name ↔ call.Starts doc i name :=
    fun name => ⟨starts_of_opens hcallee, opens_of_starts hcallee⟩
  refine ⟨hiff, ?_, fun hi => ?_⟩
  · simp only [Option.eq_none_iff_forall_ne_some, ne_eq, hiff]
  · simp [boundary, opens, List.drop_eq_nil_of_le hi]

/-- Two calls on a line, neither with a name beside it, and blank lines before the name below. -/
def handedOver : List Line :=
  ["server.tool(x) server.tool( ".toList, [], ['\t'], " 'a\", \x7b".toList]

theorem handedOver_starts :
    '(' ∉ serverTool.callee ∧ serverTool.Starts handedOver 0 ['a'] ∧
      serverTool.boundary.opens handedOver 4 = none := by
  have hcallee : '(' ∉ serverTool.callee := by decide
  obtain ⟨hopens, -⟩ := opens_iff_starts hcallee handedOver 0
  obtain ⟨-, -, hpast⟩ := opens_iff_starts hcallee handedOver 4
  exact ⟨hcallee, (hopens _).mp (by decide +kernel), hpast (by decide)⟩

end BlockSieve.Call
