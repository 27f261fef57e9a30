import BlockSieve.Proofs.Patch
import BlockSieve.Proofs.Preview

/-!
The preview that a dry run prints, read as a patch for the source. All rows in
it are the right ones and stand where they should; the first row of a hunk can
be wrong, where an addition or a removal at one of its ends was moved past a
change of the other kind, and then no reader that goes by it gets through.
-/

namespace BlockSieve

open Diff

/-- What the printed preview makes of the source as a patch. -/
def Prepared.patched? (p : Prepared) (source : Path) : Option Text :=
  Diff.patched? ("a/".toList ++ source.text) ("b/".toList ++ source.text)
    ((Message.preview source p.content p.outcome.content).print false) p.content

/-- What is printed of a change: its rows are those of the source and of the new text where it
stands, and as a patch it makes the new text if the first rows of its hunks are right, and otherwise
nothing. They are right in hunks that neither begin nor end with rows of one side only. -/
structure Prepared.Previewed (p : Prepared) (source : Path) : Prop where
  printed : (Message.preview source p.content p.outcome.content).print false =
    preamble ("a/".toList ++ source.text) ("b/".toList ++ source.text) ++
      ((changes p.content p.outcome.content).flatMap
        (Hunk.lines (rows p.content) (rows p.outcome.content))).flatMap mark
  follows : ∀ h ∈ changes p.content p.outcome.content,
    Follows (rows p.content) (rows p.outcome.content) h.start.1 h.start.2
      (h.flatMap (Piece.lines (rows p.content) (rows p.outcome.content)))
      (h.start.1 + h.oldLength) (h.start.2 + h.newLength)
  patched : p.patched? source =
    if ∀ h ∈ changes p.content p.outcome.content, h.Right then some p.outcome.content else none
  right : ∀ h ∈ changes p.content p.outcome.content, h.Anchored → h.Right

theorem Prepared.previewed {p : Prepared} (hne : p.content ≠ p.outcome.content) (source : Path) :
    p.Previewed source := by
  have hprint : (Message.preview source p.content p.outcome.content).print false =
      unified ("a/".toList ++ source.text) ("b/".toList ++ source.text) p.content
        p.outcome.content := if_neg hne
  have hfollows := (shown_changes p.content p.outcome.content).follows
  refine ⟨hprint.trans (unified_eq _ _ hne), fun h hh => (hfollows h hh).1, ?_,
    fun h hh => (hfollows h hh).2⟩
  rw [Prepared.patched?, hprint]
  exact patched?_unified _ _ hne

namespace Options

/-- **What a dry run prints of a change is a patch for the source**, if the first rows of its hunks
are right: of what was read it makes what a real run writes, and where one of them is wrong it makes
nothing. The rows themselves are always right, wherever they stand. -/
theorem dry_prints_patch (o : Options) (d : Disk) {r : Report} (hjson : o.json = false)
    (hr : (o.dry.run d).result = .ok r) :
    ∃ p : Prepared, o.prepare d = (.ok p, progress p.outcome) ∧
      d.readText o.sourcePath = .ok p.content ∧
      (∀ s, (o.real.run d).result = .ok s →
        (d.backUp o.sourcePath).2.writeText o.sourcePath p.outcome.content =
          (.ok (), (o.real.run d).disk)) ∧
      (o.dry.run d).messages = progress p.outcome ++
        [.preview o.sourcePath p.content p.outcome.content, .summary r] ∧
      (p.content ≠ p.outcome.content → p.Previewed o.sourcePath) := by
  obtain ⟨p, said, hprepare⟩ := prepared_of_ok hr
  rw [o.prepare_dry] at hprepare
  obtain ⟨hread, hsaid⟩ := of_prepare hprepare
  rw [hjson] at hsaid
  have hdry := run_dry hprepare
  rw [hdry] at hr
  obtain rfl := Except.ok.inj hr
  refine ⟨p, hprepare.trans (by rw [hsaid]; rfl), hread, fun s hs => ?_, ?_,
    fun hne => p.previewed hne o.sourcePath⟩
  · obtain ⟨-, copied, after, hbackup, hwrite, hreal⟩ := run_real hprepare hs
    rw [hbackup, hreal]
    exact hwrite
  · rw [hdry, hsaid]
    simp [Voice.say, voice, conclusion, hjson]

/-- A block that is not on the built-in list and is closed at once. -/
def shortBlock : Text := "server.tool('a',\n)\n".toList

/-- What is made of it. -/
def shortBlockOutcome : Outcome where
  lines := ["  // [FILTERED] a".toList, "  // server.tool('a',".toList, "  // )".toList, []]
  decisions := [⟨['a'], .filter, 1, 2⟩]
  summary := ⟨0, 1⟩
  unclosed := none

theorem dry_prints_patch_shortBlock :
    onLoneFile.json = false ∧
      ∃ r, (onLoneFile.dry.run (.holding (Utf8.encode shortBlock))).result = .ok r ∧
        ∃ p : Prepared, p.content = shortBlock ∧ p.outcome = shortBlockOutcome ∧
          p.Previewed onLoneFile.sourcePath ∧
          p.patched? onLoneFile.sourcePath = some shortBlockOutcome.content := by
  have hsieve : (onLoneFile.sieve AllowList.builtin).sieveText shortBlock =
      .ok shortBlockOutcome := by decide +kernel
  obtain ⟨unmatched, said, hprepare⟩ :=
    prepare_holding (o := onLoneFile) rfl rfl (Utf8.decode_encode shortBlock) hsieve
  obtain ⟨r, -, hr, -⟩ := succeeds_on_holding hprepare
  obtain ⟨p, hp, -, -, -, hpreviewed⟩ :=
    dry_prints_patch onLoneFile (.holding (Utf8.encode shortBlock)) rfl hr
  rw [hprepare] at hp
  obtain rfl := Except.ok.inj (Prod.mk.inj hp).1
  have hne : shortBlock ≠ shortBlockOutcome.content := by decide
  have hchanges : changes shortBlock shortBlockOutcome.content = [[⟨false, 0, 2, 0, 3⟩]] := by cbv
  have h := hpreviewed hne
  refine ⟨rfl, r, hr, _, rfl, rfl, h, ?_⟩
  rw [h.patched, if_pos]
  intro hunk hhunk
  refine h.right hunk hhunk ?_
  rw [hchanges] at hhunk
  obtain rfl := List.mem_singleton.mp hhunk
  simp [Hunk.Anchored, Piece.Anchored]

/-- A block that is not on the built-in list. Its first line is no comment, its second one is. -/
def driftingBlock : Text := "server.tool('a',\n  // )\n)\n)\n".toList

/-- What is made of it. -/
def driftingBlockOutcome : Outcome where
  lines := ["  // [FILTERED] a".toList, "  // server.tool('a',".toList, "  //   // )".toList,
    "  // )".toList, "  // )".toList, []]
  decisions := [⟨['a'], .filter, 1, 4⟩]
  summary := ⟨0, 1⟩
  unclosed := none

/-- **A preview that is no patch.** The hunk ends with rows that are taken away. They were passed by
rows put in, and their place on the new side is still the one that they had before. -/
theorem dry_prints_no_patch :
    onLoneFile.json = false ∧
      ∃ r p said, (onLoneFile.dry.run (.holding (Utf8.encode driftingBlock))).result = .ok r ∧
        onLoneFile.prepare (.holding (Utf8.encode driftingBlock)) = (.ok p, said) ∧
        p.content = driftingBlock ∧ p.content ≠ p.outcome.content ∧
        p.patched? onLoneFile.sourcePath = none := by
  have hsieve : (onLoneFile.sieve AllowList.builtin).sieveText driftingBlock =
      .ok driftingBlockOutcome := by decide +kernel
  obtain ⟨unmatched, said, hprepare⟩ :=
    prepare_holding (o := onLoneFile) rfl rfl (Utf8.decode_encode driftingBlock) hsieve
  obtain ⟨r, -, hr, -⟩ := succeeds_on_holding hprepare
  have hne : driftingBlock ≠ driftingBlockOutcome.content := by decide
  have hchanges : changes driftingBlock driftingBlockOutcome.content =
      [[⟨false, 0, 1, 0, 4⟩, ⟨true, 1, 1, 4, 1⟩, ⟨false, 2, 2, 4, 0⟩]] := by cbv
  refine ⟨rfl, r, _, said, hr, hprepare, rfl, hne, ?_⟩
  rw [(Prepared.previewed hne onLoneFile.sourcePath).patched, if_neg]
  intro hright
  rw [hchanges] at hright
  have hranges := hright _ (List.mem_singleton_self _)
  rw [Hunk.Right, ranges?_header rfl rfl] at hranges
  revert hranges
  decide

end Options

end BlockSieve
