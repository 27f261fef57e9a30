import BlockSieve.Proofs.Extent
import BlockSieve.Proofs.Preview
import BlockSieve.Proofs.Restoration
import BlockSieve.Proofs.SecondPass

/-!
Lines as they are stored. A newline byte is part of no other character, and
ends whatever was begun before it, so decoding goes line by line: bytes that
are no text spoil their own line and no other. The lines that are sieved, and
the numbers by which blocks are reported, are therefore those of the stored
file, and a line that was a text and is not in a filtered block is stored
again byte for byte.
-/

namespace BlockSieve

namespace Utf8

theorem newline_ne_ofNat {n : Nat} (h : n ≠ 10) : '\n' ≠ Char.ofNat n := by
  intro heq
  by_cases hvalid : n.isValidChar
  · have hn : (Char.ofNat n).toNat = n := by
      simp [Char.ofNat, hvalid, Char.ofNatAux, Char.toNat]
    rw [← heq] at hn
    exact h hn.symm
  · have hn : Char.ofNat n = '\x00' := by
      rw [Char.ofNat, dif_neg hvalid]
      rfl
    rw [hn] at heq
    exact absurd heq (by decide)

/-- A character of more than one byte is none of the first 128. -/
theorem newline_ne_two {b : UInt8} (c : UInt8) (h : lead2 b = true) :
    '\n' ≠ Char.ofNat (extend (b.toNat % 32) c) := by
  have hb := lead2_iff.mp h
  refine newline_ne_ofNat ?_
  simp only [extend]
  omega

theorem newline_ne_three {b c : UInt8} (d : UInt8) (h : lead3 b c = true) :
    '\n' ≠ Char.ofNat (extend (extend (b.toNat % 16) c) d) := by
  have hb := lead3_iff.mp h
  refine newline_ne_ofNat ?_
  simp only [extend]
  omega

theorem newline_ne_four {b c : UInt8} (d e : UInt8) (h : lead4 b c = true) :
    '\n' ≠ Char.ofNat (extend (extend (extend (b.toNat % 8) c) d) e) := by
  have hb := lead4_iff.mp h
  refine newline_ne_ofNat ?_
  simp only [extend]
  omega

/-- Only the newline byte is read as a newline. -/
theorem newline_not_mem_decode {b : Bytes} (h : 0x0A ∉ b) : '\n' ∉ decode b := by
  have hreplacement : '\n' ≠ replacement := by decide
  fun_induction decode b with
  | case1 => simp
  | case2 b r _ ih =>
      have hb : b.toNat ≠ 10 := by
        intro hb
        exact h (by simp [← UInt8.toNat_inj, hb])
      simp_all [newline_ne_ofNat hb]
  | _ => simp_all [newline_ne_two, newline_ne_three, newline_ne_four]


theorem decode_newline (r : Bytes) : decode (0x0A :: r) = '\n' :: decode r := by
  rw [decode.eq_def]
  simp

theorem continues_newline : continues 0x0A = false := by decide

theorem lead3_newline (b : UInt8) : lead3 b 0x0A = false := by
  have : (0x0A : UInt8).toNat = 10 := rfl
  rw [Bool.eq_false_iff, Ne, lead3_iff]
  omega

theorem lead4_newline (b : UInt8) : lead4 b 0x0A = false := by
  have : (0x0A : UInt8).toNat = 10 := rfl
  rw [Bool.eq_false_iff, Ne, lead4_iff]
  omega

/-- A newline byte is read as such, however the bytes before it end. -/
theorem decode_append_newline (b r : Bytes) :
    decode (b ++ 0x0A :: r) = decode b ++ '\n' :: decode r := by
  fun_induction decode b with
  | case1 => exact decode_newline r
  | _ =>
      rw [List.cons_append, decode.eq_def]
      simp_all [continues_newline, lead3_newline, lead4_newline, decode_newline, -UInt8.not_lt,
        -not_and]

/-- The lines of a file as it is stored, cut at every newline byte. -/
def rawLines (b : Bytes) : List Bytes := b.splitOn 0x0A

theorem intercalate_rawLines (b : Bytes) : [0x0A].intercalate (rawLines b) = b :=
  List.intercalate_splitOn 0x0A

theorem rawLines_ne_nil (b : Bytes) : rawLines b ≠ [] := List.splitOnP_ne_nil _ b

theorem not_mem_of_mem_rawLines {b line : Bytes} (h : line ∈ rawLines b) : 0x0A ∉ line := by
  induction b generalizing line with
  | nil => simp_all [rawLines]
  | cons c b ih =>
      rw [rawLines, List.splitOn, List.splitOnP_cons_eq_if_modifyHead] at h
      split at h
      · rcases List.mem_cons.mp h with rfl | h
        · simp
        · exact ih h
      · next hc =>
          obtain ⟨first, more, hlines⟩ := List.exists_cons_of_ne_nil (rawLines_ne_nil b)
          rw [hlines] at ih
          change line ∈ List.modifyHead (List.cons c) (rawLines b) at h
          rw [hlines] at h
          rcases List.mem_cons.mp h with rfl | h
          · have hfirst := ih (List.mem_cons_self ..)
            rw [List.mem_cons, not_or]
            exact ⟨fun heq => hc (by rw [← heq]; rfl), hfirst⟩
          · exact ih (List.mem_cons_of_mem _ h)

/-- Decoding pieces with newline bytes between them. -/
theorem decode_intercalate (pieces : List Bytes) :
    decode ([0x0A].intercalate pieces) = Text.ofLines (pieces.map decode) := by
  induction pieces with
  | nil => rfl
  | cons piece pieces ih =>
      cases pieces with
      | nil => simp [List.intercalate, Text.ofLines, Text.joinBy]
      | cons second rest =>
          rw [List.intercalate_cons_cons]
          simp only [List.append_assoc, List.singleton_append, decode_append_newline, ih]
          rfl

/-- Decoding is done line by line. -/
theorem lines_decode (b : Bytes) : Text.lines (decode b) = (rawLines b).map decode := by
  have hfree : ∀ line ∈ (rawLines b).map decode, '\n' ∉ line := by
    intro line hline
    obtain ⟨piece, hpiece, rfl⟩ := List.mem_map.mp hline
    exact newline_not_mem_decode (not_mem_of_mem_rawLines hpiece)
  calc Text.lines (decode b) = Text.lines (decode ([0x0A].intercalate (rawLines b))) := by
        rw [intercalate_rawLines]
    _ = Text.lines (Text.ofLines ((rawLines b).map decode)) := by rw [decode_intercalate]
    _ = (rawLines b).map decode := Text.lines_ofLines (by simpa using rawLines_ne_nil b) hfree

theorem encode_append (t u : Text) : encode (t ++ u) = encode t ++ encode u := List.flatMap_append

theorem encode_ofLines (ls : List Line) :
    encode (Text.ofLines ls) = [0x0A].intercalate (ls.map encode) := by
  induction ls with
  | nil => rfl
  | cons line ls ih =>
      cases ls with
      | nil => simp [List.intercalate, Text.ofLines, Text.joinBy]
      | cons second rest =>
          have hcons : Text.ofLines (line :: second :: rest) =
              line ++ ['\n'] ++ Text.ofLines (second :: rest) := by
            simp [Text.ofLines, Text.joinBy]
          simp only [hcons, encode_append, ih, List.map_cons, List.intercalate_cons_cons]
          rfl

theorem newline_not_mem_encode {t : Text} (h : '\n' ∉ t) : 0x0A ∉ encode t := by
  intro hmem
  obtain ⟨front, rest, heq⟩ := List.append_of_mem hmem
  have hdecode := decode_append_newline front rest
  rw [← heq, decode_encode] at hdecode
  exact h (by simp [hdecode])

/-- Encoding is done line by line. -/
theorem rawLines_encode (t : Text) : rawLines (encode t) = (Text.lines t).map encode := by
  have hfree : ∀ piece ∈ (Text.lines t).map encode, 0x0A ∉ piece := by
    intro piece hpiece
    obtain ⟨line, hline, rfl⟩ := List.mem_map.mp hpiece
    exact newline_not_mem_encode (Text.not_mem_of_mem_lines hline)
  calc rawLines (encode t) = rawLines (encode (Text.ofLines (Text.lines t))) := by
        rw [Text.ofLines_lines]
    _ = rawLines ([0x0A].intercalate ((Text.lines t).map encode)) := by rw [encode_ofLines]
    _ = (Text.lines t).map encode :=
        List.splitOn_intercalate 0x0A hfree (by simpa [Text.lines] using Text.cutAt_ne_nil _ t)

end Utf8

/-- How many filtered blocks end before the line with a number, counted from one: each has had a
marker line written before it. -/
def Decision.markersBefore (decisions : List Decision) (n : Nat) : Nat :=
  decisions.countP fun d => d.action = .filter ∧ d.endLine < n

namespace Extent

variable {a : AllowList} {doc : List Line} {x : Extent}

/-- How many lines more than it has are written for a block. -/
def markers (a : AllowList) (x : Extent) : Nat := if a.contains x.name then 0 else 1

/-- The lines written for a block. -/
def block (a : AllowList) (doc : List Line) (x : Extent) : List Line :=
  if a.contains x.name then doc.extract x.first (x.last + 1)
  else Comment.marker x.name :: (doc.extract x.first (x.last + 1)).map Comment.comment

theorem length_extract {i j : Nat} (h : j ≤ doc.length) : (doc.extract i j).length = j - i := by
  rw [List.extract_eq_take_drop, List.length_take, List.length_drop]
  omega

theorem length_block (h : x.last < doc.length) :
    (x.block a doc).length = x.last + 1 - x.first + x.markers a := by
  unfold block markers
  split
  · exact length_extract h
  · rw [List.length_cons, List.length_map, length_extract h]

theorem written_cons (a : AllowList) (doc : List Line) (p : Nat) (x : Extent)
    (extents : List Extent) (tail : Option OpenTail) :
    written a doc p (x :: extents) tail =
      doc.extract p x.first ++ (x.block a doc ++ written a doc (x.last + 1) extents tail) := rfl

theorem markersBefore_cons (a : AllowList) (x : Extent) (extents : List Extent) (k : Nat) :
    Decision.markersBefore ((x :: extents).map (decision a)) (k + 1) =
      (if x.last < k then x.markers a else 0) +
        Decision.markersBefore (extents.map (decision a)) (k + 1) := by
  rw [List.map_cons, Decision.markersBefore, List.countP_cons, Nat.add_comm]
  congr 1
  cases hname : a.contains x.name <;> simp [decision, AllowList.action, markers, hname]

end Extent

namespace Boundary

variable {b : Boundary} {doc : List Line} {p k : Nat} {extents : List Extent}
  {tail : Option OpenTail}

theorem Extents.bounds (h : b.Extents doc p extents tail) {x : Extent} (hx : x ∈ extents) :
    p ≤ x.first ∧ x.first < x.last ∧ x.last < doc.length := by
  induction h with
  | quiet _ => cases hx
  | unclosed _ _ => cases hx
  | closed start stop _ ih =>
      rcases List.mem_cons.mp hx with rfl | hx
      · exact ⟨start.from_le, stop.after, stop.lt_length⟩
      · have := ih hx
        have := start.from_le
        have := stop.after
        omega

theorem Extents.markersBefore_eq_zero (a : AllowList) (h : b.Extents doc p extents tail)
    (hk : k ≤ p) : Decision.markersBefore (extents.map (Extent.decision a)) k = 0 := by
  refine List.countP_eq_zero.mpr fun d hd => ?_
  obtain ⟨x, hx, rfl⟩ := List.mem_map.mp hd
  have hbounds := h.bounds hx
  rw [decide_eq_true_eq, not_and]
  intro _
  simp only [Extent.decision]
  omega

/-- A line that is not in a filtered block, and comes before the block left open, is written as it
is, further down by the markers of the filtered blocks before it. -/
theorem Extents.getElem?_written (a : AllowList) (h : b.Extents doc p extents tail) {line : Line}
    (hp : p ≤ k) (hline : doc[k]? = some line)
    (hspared : ¬ Decision.Covers (extents.map (Extent.decision a)) (k + 1))
    (hopen : ∀ t, tail = some t → k < t.first) :
    (Extent.written a doc p extents tail)[k - p +
      Decision.markersBefore (extents.map (Extent.decision a)) (k + 1)]? = some line := by
  have hlt : k < doc.length := (List.getElem?_eq_some_iff.mp hline).1
  have hextract : ∀ {i j}, i ≤ k → k < j → (doc.extract i j)[k - i]? = some line := by
    intro i j hi hj
    rw [List.extract_eq_take_drop, List.getElem?_take_of_lt (by omega), List.getElem?_drop,
      Nat.add_sub_cancel' hi, hline]
  induction h with
  | quiet _ =>
      rw [Extent.written, List.getElem?_drop, ← hline]
      congr 1
      simp [Decision.markersBefore]
      omega
  | unclosed _ _ => exact hextract hp (hopen _ rfl)
  | @closed p s e name extents tail start stop rest ih =>
      have hstart := start.from_le
      have hafter := stop.after
      have hfront : (doc.extract p s).length = s - p :=
        Extent.length_extract (Nat.le_of_lt start.lt_length)
      have hblock : (Extent.block a doc ⟨name, s, e⟩).length =
          e + 1 - s + Extent.markers a ⟨name, s, e⟩ := Extent.length_block stop.lt_length
      rw [List.map_cons, Decision.covers_cons, not_or] at hspared
      rw [Extent.written_cons, Extent.markersBefore_cons]
      dsimp only
      rcases Nat.lt_or_ge e k with he | he
      · rw [if_pos he, List.getElem?_append_right (by omega), List.getElem?_append_right (by omega),
          ← ih (by omega) hspared.2 hopen]
        congr 1
        omega
      · rw [if_neg (by omega), rest.markersBefore_eq_zero a (by omega)]
        rcases Nat.lt_or_ge k s with hs | hs
        · rw [List.getElem?_append_left (by omega)]
          exact hextract hp hs
        · have hkept : a.contains name = true := by
            by_contra hname
            refine hspared.1 ⟨?_, ?_, ?_⟩
            · simp [Extent.decision, AllowList.action, hname]
            · simp [Extent.decision, hs]
            · simp [Extent.decision, he]
          have hsame : Extent.block a doc ⟨name, s, e⟩ = doc.extract s (e + 1) := if_pos hkept
          rw [List.getElem?_append_right (by omega), List.getElem?_append_left (by omega), hsame,
            ← hextract hs (Nat.lt_succ_of_le he)]
          congr 1
          omega

end Boundary

/-- A report counts the lines of `doc`: its decisions, and the block left open, are those on the
blocks of `doc` by where they stand. -/
def Report.Counts (r : Report) (allowed : AllowList) (doc : List Line) : Prop :=
  ∃ extents tail, Call.serverTool.boundary.Extents doc 0 extents tail ∧
    r.decisions = extents.map (Extent.decision allowed) ∧ r.unclosed = tail.map (OpenTail.report doc)

/-- The line with number `n`, counted from one, is outside all blocks or in one that is kept. -/
structure Report.Spares (r : Report) (n : Nat) : Prop where
  unfiltered : ¬ Decision.Covers r.decisions n
  before_open : ∀ u, r.unclosed = some u → n < u.startLine

namespace Options

variable {o : Options} {d : Disk} {p : Prepared} {said : List Message}

/-- What is made of a source, told by where its blocks stand. -/
theorem exists_extents_of_prepare (h : o.prepare d = (.ok p, said)) :
    ∃ allowed extents tail, o.allowed d = .ok allowed ∧
      Call.serverTool.boundary.Extents (Text.lines p.content) 0 extents tail ∧
      p.outcome.lines = Extent.written allowed (Text.lines p.content) 0 extents tail ∧
      p.outcome.decisions = extents.map (Extent.decision allowed) ∧
      p.outcome.unclosed = tail.map (OpenTail.report (Text.lines p.content)) ∧
      ∀ line ∈ p.outcome.lines, '\n' ∉ line := by
  unfold prepare at h
  split at h
  · cases h
  · next allowed hallowed =>
      split at h
      · cases h
      · next content _ =>
          split at h
          · cases h
          · next hsieve =>
              cases h
              have hsegments :=
                Call.serverTool.boundary.segmented_segments (Text.lines content)
              obtain ⟨extents, tail, hextents, hout⟩ := hsegments.exists_extents allowed
              rw [Sieve.eq_ofSegments_of_sieveLines hsieve]
              refine ⟨allowed, extents, tail, hallowed, hextents, congrArg Outcome.lines hout,
                congrArg Outcome.decisions hout, congrArg Outcome.unclosed hout, ?_⟩
              exact Call.newline_not_mem_sieved allowed
                (fun _ => Text.not_mem_of_mem_lines) hsegments

/-- A report has what was made of the source, in a dry run as in a real one. -/
theorem report_of_ok {r : Report} (hprepare : o.prepare d = (.ok p, said))
    (h : (o.run d).result = .ok r) :
    r.decisions = p.outcome.decisions ∧ r.unclosed = p.outcome.unclosed := by
  simp only [run, hprepare] at h
  split at h
  · cases h
  · cases h
    exact ⟨rfl, rfl⟩

/-- A line of the source that was a text, and is spared, is a line of what is written. -/
theorem getElem?_written_raw {r : Report} {raw line : Bytes} {n : Nat}
    (hprepare : o.prepare d = (.ok p, said)) (hraw : p.content = Utf8.decode raw)
    (hreport : r.decisions = p.outcome.decisions ∧ r.unclosed = p.outcome.unclosed)
    (hline : (Utf8.rawLines raw)[n]? = some line) (hencoded : Utf8.isEncoding line = true)
    (hspared : r.Spares (n + 1)) :
    (Utf8.rawLines (Utf8.encode p.outcome.content))[n +
      Decision.markersBefore r.decisions (n + 1)]? = some line := by
  obtain ⟨allowed, extents, tail, -, hextents, hlines, hdecisions, hunclosed, hfree⟩ :=
    exists_extents_of_prepare hprepare
  have hread : (Text.lines p.content)[n]? = some (Utf8.decode line) := by
    rw [hraw, Utf8.lines_decode, List.getElem?_map, hline, Option.map_some]
  have hcovers := hspared.unfiltered
  rw [hreport.1, hdecisions] at hcovers
  have hopen : ∀ t, tail = some t → n < t.first := by
    rintro t rfl
    have := hspared.before_open _ (hreport.2.trans hunclosed)
    simpa [OpenTail.report] using this
  have hwritten := hextents.getElem?_written allowed (Nat.zero_le n) hread hcovers hopen
  rw [Nat.sub_zero, ← hdecisions, ← hreport.1, ← hlines] at hwritten
  have hne : p.outcome.lines ≠ [] := List.ne_nil_of_mem (List.mem_of_getElem? hwritten)
  rw [Utf8.rawLines_encode, Outcome.content, Text.lines_ofLines hne hfree, List.getElem?_map,
    hwritten, Option.map_some]
  exact congrArg some (beq_iff_eq.mp hencoded)

/-- **Lines are read and written one by one.** The lines that are sieved are the lines of the source
as it is stored, each decoded by itself, and the report counts these. After a real run that succeeds,
every line that was the encoding of a text and is outside the blocks, or in one that is kept, is
stored again byte for byte, further down by the markers before it; whatever the other lines held. It
is stored where the source was before, unless a link stood at the name of the temporary file: then
it is what can be read from the source, if anything can. -/
theorem run_by_line (o : Options) (d : Disk) {raw : Bytes}
    (hstart : d.tree.Standing (d.start o.sourcePath.text))
    (hraw : d.read o.sourcePath.text = .ok raw) :
    (∃ content, d.readText o.sourcePath = .ok content ∧
      Text.lines content = (Utf8.rawLines raw).map Utf8.decode) ∧
    (∀ r, (o.run d).result = .ok r → ∃ allowed, o.allowed d = .ok allowed ∧
      r.Counts allowed ((Utf8.rawLines raw).map Utf8.decode)) ∧
    ∀ r, (o.real.run d).result = .ok r →
      ∃ after place mode, d.locate true o.sourcePath.text = .ok (.there place (.file raw mode)) ∧
        ((o.real.run d).disk.locate true o.sourcePath.text =
            .ok (.there place (.file after mode)) ∨ d.Diverted o.sourcePath place) ∧
        (∀ found, (o.real.run d).disk.read o.sourcePath.text = .ok found → found = after) ∧
        ∀ n line, (Utf8.rawLines raw)[n]? = some line → Utf8.isEncoding line = true →
          r.Spares (n + 1) →
          (Utf8.rawLines after)[n + Decision.markersBefore r.decisions (n + 1)]? = some line := by
  have hcontent : d.readText o.sourcePath = .ok (Utf8.decode raw) := by
    rw [Disk.readText, hraw]
  have hsame : ∀ {p said}, o.prepare d = (.ok p, said) → p.content = Utf8.decode raw :=
    fun h => Except.ok.inj ((of_prepare h).1.symm.trans hcontent)
  refine ⟨⟨_, hcontent, Utf8.lines_decode raw⟩, fun r hr => ?_, fun r hr => ?_⟩
  · obtain ⟨p, said, hprepare⟩ := prepared_of_ok hr
    obtain ⟨allowed, extents, tail, hallowed, hextents, -, hdecisions, hunclosed, -⟩ :=
      exists_extents_of_prepare hprepare
    obtain ⟨hdecided, hleft⟩ := report_of_ok hprepare hr
    rw [hsame hprepare, Utf8.lines_decode] at hextents hunclosed
    exact ⟨allowed, hallowed, extents, tail, hextents, hdecided.trans hdecisions,
      hleft.trans hunclosed⟩
  · obtain ⟨p, said, hprepare⟩ := prepared_of_ok hr
    have hreport := report_of_ok hprepare hr
    rw [o.prepare_real] at hprepare
    obtain ⟨rfl, copied, after, hbackup, hwrite, hreal⟩ := run_real hprepare hr
    obtain ⟨hreads, -, place, old, mode, hlocate, hleaves⟩ :=
      Disk.replace_leaves_of_backUp hstart hbackup hwrite
    obtain rfl : raw = old := Except.ok.inj (hraw.symm.trans (Disk.read_of_locate hlocate))
    rw [hreal]
    exact ⟨_, place, mode, hlocate, hleaves, hreads, fun n line =>
      getElem?_written_raw hprepare (hsame hprepare) hreport⟩

/-- A byte that is no text on a line of its own, a block that is not on the built-in list, and a
line after it. -/
def brokenFirstLine : Bytes :=
  0xff :: 0x0A :: Utf8.encode "server.tool('b',\n)\n\nx".toList

/-- What is made of it. -/
def brokenFirstLineOutcome : Outcome where
  lines := ["\uFFFD".toList, "  // [FILTERED] b".toList, "  // server.tool('b',".toList,
    "  // )".toList, [], ['x']]
  decisions := [⟨['b'], .filter, 2, 3⟩]
  summary := ⟨0, 1⟩
  unclosed := none

theorem run_by_line_brokenFirstLine :
    (Disk.holding brokenFirstLine).tree.Standing
        ((Disk.holding brokenFirstLine).start onLoneFile.sourcePath.text) ∧
      (Disk.holding brokenFirstLine).read onLoneFile.sourcePath.text = .ok brokenFirstLine ∧
      ∃ r, (onLoneFile.real.run (.holding brokenFirstLine)).result = .ok r ∧
        (Utf8.rawLines brokenFirstLine)[4]? = some [120] ∧ Utf8.isEncoding [120] = true ∧
        r.Spares 5 ∧ ∃ after,
          (onLoneFile.real.run (.holding brokenFirstLine)).disk.read "a.ts".toList = .ok after ∧
            (Utf8.rawLines after)[5]? = some [120] := by
  have hraw : (Disk.holding brokenFirstLine).read onLoneFile.sourcePath.text =
      .ok brokenFirstLine := by cbv
  have hdecode : Utf8.decode brokenFirstLine = "\uFFFD\nserver.tool('b',\n)\n\nx".toList := by cbv
  have hsieve : (onLoneFile.sieve AllowList.builtin).sieveText
      "\uFFFD\nserver.tool('b',\n)\n\nx".toList = .ok brokenFirstLineOutcome := by decide +kernel
  obtain ⟨unmatched, said, hprepare⟩ :=
    prepare_holding (o := onLoneFile) rfl rfl hdecode hsieve
  obtain ⟨-, s, -, hs, hdisk⟩ := succeeds_on_holding hprepare
  obtain ⟨hdecisions, hunclosed⟩ := report_of_ok ((prepare_real _ _).trans hprepare) hs
  have hline : (Utf8.rawLines brokenFirstLine)[4]? = some [120] := by decide
  have hspares : s.Spares 5 := by
    refine ⟨?_, ?_⟩
    · rw [hdecisions]
      change ¬ Decision.Covers brokenFirstLineOutcome.decisions 5
      decide
    · rw [hunclosed]
      simp [brokenFirstLineOutcome]
  have hmarkers : Decision.markersBefore s.decisions 5 = 1 := by
    rw [hdecisions]
    change Decision.markersBefore brokenFirstLineOutcome.decisions 5 = 1
    decide
  have hafter : (onLoneFile.real.run (.holding brokenFirstLine)).disk.read "a.ts".toList =
      .ok (Utf8.encode brokenFirstLineOutcome.content) := by
    rw [hdisk]
    cbv
  obtain ⟨-, -, hreal⟩ := run_by_line onLoneFile (.holding brokenFirstLine) .root hraw
  obtain ⟨after, -, -, -, -, hreads, hlines⟩ := hreal s hs
  obtain rfl := hreads _ hafter
  have hmoved := hlines 4 [120] hline (by decide) hspares
  rw [hmarkers] at hmoved
  exact ⟨.root, hraw, s, hs, hline, by decide, hspares, _, hafter, hmoved⟩

end Options

end BlockSieve
