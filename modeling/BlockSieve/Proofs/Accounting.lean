import BlockSieve.Proofs.Encoding
import BlockSieve.Proofs.WellPlaced
import Mathlib.Data.List.Dedup

/-!
The account that a pass gives of its allow-list. The names that no block
carries come out in the order of their bytes, which is the order of their
characters, and with the names of the blocks kept, each counted once, they
make up the whole list. In what order the names were listed, and how often,
makes no difference.
-/

namespace BlockSieve

namespace Utf8

/-- Bytes come before others if the first is less, or if it is the same and the rest comes before. -/
theorem cons_ofNat_lt {m n : Nat} {s t : Bytes} (hm : m < 256) (hn : n < 256) (hle : m ≤ n)
    (h : m = n → s < t) : UInt8.ofNat m :: s < UInt8.ofNat n :: t := by
  rw [List.cons_lt_cons_iff, UInt8.lt_iff_toNat_lt, toNat_ofNat hm, toNat_ofNat hn]
  rcases Nat.lt_or_eq_of_le hle with hlt | hsame
  · exact .inl hlt
  · exact .inr ⟨by rw [hsame], h hsame⟩

/-- Of two characters the one with the lesser number has the lesser bytes, whatever follows them. -/
theorem encodeChar_lt {c d : Char} (h : c.toNat < d.toNat) (s t : Bytes) :
    String.utf8EncodeChar c ++ s < String.utf8EncodeChar d ++ t := by
  have hd := d.valid
  unfold String.utf8EncodeChar
  change c.val.toNat < d.val.toNat at h
  change (d.val.toNat < 0xD800 ∨ 0xDFFF < d.val.toNat ∧ d.val.toNat < 0x110000) at hd
  generalize c.val.toNat = v at h ⊢
  generalize d.val.toNat = w at h hd ⊢
  dsimp only
  -- the first byte grows with the number of bytes, so bytes further back count only where both
  -- characters take as many
  split
  · split
    · exact cons_ofNat_lt (by omega) (by omega) (by omega) (by omega)
    · split
      · exact cons_ofNat_lt (by omega) (by omega) (by omega) (by omega)
      · split
        · exact cons_ofNat_lt (by omega) (by omega) (by omega) (by omega)
        · exact cons_ofNat_lt (by omega) (by omega) (by omega) (by omega)
  · rw [if_neg (show ¬ w ≤ 127 by omega)]
    split
    · split
      · refine cons_ofNat_lt (by omega) (by omega) (by omega) fun hfirst => ?_
        exact cons_ofNat_lt (by omega) (by omega) (by omega) (by omega)
      · split
        · exact cons_ofNat_lt (by omega) (by omega) (by omega) (by omega)
        · exact cons_ofNat_lt (by omega) (by omega) (by omega) (by omega)
    · rw [if_neg (show ¬ w ≤ 2047 by omega)]
      split
      · split
        · refine cons_ofNat_lt (by omega) (by omega) (by omega) fun hfirst => ?_
          refine cons_ofNat_lt (by omega) (by omega) (by omega) fun hsecond => ?_
          exact cons_ofNat_lt (by omega) (by omega) (by omega) (by omega)
        · exact cons_ofNat_lt (by omega) (by omega) (by omega) (by omega)
      · rw [if_neg (show ¬ w ≤ 65535 by omega)]
        refine cons_ofNat_lt (by omega) (by omega) (by omega) fun hfirst => ?_
        refine cons_ofNat_lt (by omega) (by omega) (by omega) fun hsecond => ?_
        refine cons_ofNat_lt (by omega) (by omega) (by omega) fun hthird => ?_
        exact cons_ofNat_lt (by omega) (by omega) (by omega) (by omega)

/-- A text that comes before another has the lesser bytes. -/
theorem encode_lt_of_precedes {s t : Text} (h : Text.precedes s t = true) :
    encode s < encode t := by
  induction s generalizing t with
  | nil =>
      cases t with
      | nil => cases h
      | cons b t =>
          have hne : encode (b :: t) ≠ [] := by simp [encode]
          obtain ⟨byte, rest, hbytes⟩ := List.exists_cons_of_ne_nil hne
          rw [hbytes]
          exact List.nil_lt_cons byte rest
  | cons a s ih =>
      cases t with
      | nil => cases h
      | cons b t =>
          change String.utf8EncodeChar a ++ encode s < String.utf8EncodeChar b ++ encode t
          by_cases hab : a = b
          · subst hab
            exact List.append_left_lt (ih (by simpa [Text.precedes] using h))
          · exact encodeChar_lt (by simpa [Text.precedes, hab] using h) _ _

end Utf8

namespace AllowList

variable (a : AllowList)

theorem nodup_names : a.names.Nodup := by
  refine a.ascending.imp ?_
  rintro m n hmn rfl
  rw [Text.precedes_irrefl] at hmn
  cases hmn

/-- An allow-list is told by the names that are on it. -/
theorem eq_of_mem_iff {a b : AllowList} (h : ∀ n, n ∈ a.names ↔ n ∈ b.names) : a = b := by
  have hperm : a.names.Perm b.names :=
    (List.perm_ext_iff_of_nodup a.nodup_names b.nodup_names).mpr h
  have hnames : a.names = b.names := by
    refine hperm.eq_of_pairwise (fun m n _ _ hmn hnm => ?_) a.ascending b.ascending
    have hmm := Text.precedes_trans hmn hnm
    rw [Text.precedes_irrefl] at hmm
    cases hmm
  cases a
  cases b
  cases hnames
  rfl

theorem ofList_eq_of_mem_iff {names others : List Name} (h : ∀ n, n ∈ others ↔ n ∈ names) :
    ofList others = ofList names :=
  eq_of_mem_iff fun n => by rw [mem_ofList, mem_ofList, h]

theorem size_ofList (names : List Name) : (ofList names).size = names.dedup.length := by
  refine ((List.perm_ext_iff_of_nodup (ofList names).nodup_names names.nodup_dedup).mpr
    fun n => ?_).length_eq
  rw [mem_ofList, List.mem_dedup]

theorem mem_unmatched {seen : List Name} {n : Name} :
    n ∈ a.unmatched seen ↔ n ∈ a.names ∧ n ∉ seen := by
  simp [unmatched]

theorem pairwise_unmatched (seen : List Name) :
    (a.unmatched seen).Pairwise fun m n => Utf8.encode m < Utf8.encode n :=
  (a.ascending_unmatched seen).imp Utf8.encode_lt_of_precedes

/-- The names on the list are those not seen and those seen, however often these were. -/
theorem length_unmatched_add {seen kept : List Name}
    (h : ∀ n, n ∈ kept ↔ n ∈ a.names ∧ n ∈ seen) :
    (a.unmatched seen).length + kept.dedup.length = a.size := by
  have hkept : (a.names.filter fun n => decide (n ∈ seen)).Perm kept.dedup := by
    refine (List.perm_ext_iff_of_nodup (a.nodup_names.filter _) kept.nodup_dedup).mpr fun n => ?_
    rw [List.mem_dedup, h, List.mem_filter, decide_eq_true_eq]
  have hsplit := List.length_eq_length_filter_add (l := a.names) fun n => decide (n ∈ seen)
  rw [size, hsplit, hkept.length_eq, unmatched, Nat.add_comm]
  simp

end AllowList

namespace Outcome

/-- The names of the blocks that were kept. -/
def keptNames (o : Outcome) : List Name :=
  (o.decisions.filter fun d => d.action = .keep).map Decision.name

/-- Kept are the blocks that carry a name on the list. -/
theorem mem_keptNames_ofSegments (a : AllowList) (segments : List Segment) (n : Name) :
    n ∈ (ofSegments a segments).keptNames ↔
      n ∈ a.names ∧ n ∈ (ofSegments a segments).decisions.map Decision.name := by
  have haction : ∀ d ∈ (ofSegments a segments).decisions, d.action = .keep ↔ d.name ∈ a.names := by
    intro d hd
    obtain ⟨block, -, rfl⟩ := Segment.mem_decisions_iff.mp hd
    change a.action block.name = .keep ↔ block.name ∈ a.names
    simp [AllowList.action, AllowList.contains]
  simp only [keptNames, List.mem_map, List.mem_filter, decide_eq_true_eq]
  constructor
  · rintro ⟨d, ⟨hd, hkeep⟩, rfl⟩
    exact ⟨(haction d hd).mp hkeep, d, hd, rfl⟩
  · rintro ⟨hname, d, hd, rfl⟩
    exact ⟨d, ⟨hd, (haction d hd).mpr hname⟩, rfl⟩

end Outcome

namespace Sieve

/-- The account of the listed names after a pass: those that no block carries are in the order of
their bytes, and with the different names of the blocks kept they are as many as were listed, each
name counted once. A list of the same names gives the same outcome and the same account. -/
structure Accounted (names : List Name) (b : Boundary) (policy : Policy) (doc : List Line)
    (o : Outcome) : Prop where
  ascending : ((⟨.ofList names, b, policy⟩ : Sieve).unmatched o).Pairwise fun m n =>
    Utf8.encode m < Utf8.encode n
  mem_unmatched : ∀ n, n ∈ (⟨.ofList names, b, policy⟩ : Sieve).unmatched o ↔
    n ∈ names ∧ ∀ d ∈ o.decisions, d.name ≠ n
  complete : ((⟨.ofList names, b, policy⟩ : Sieve).unmatched o).length +
    o.keptNames.dedup.length = (AllowList.ofList names).size
  distinct : (AllowList.ofList names).size = names.dedup.length
  of_same_names : ∀ others : List Name, (∀ n, n ∈ others ↔ n ∈ names) →
    (⟨.ofList others, b, policy⟩ : Sieve).sieveLines doc = .ok o ∧
      (⟨.ofList others, b, policy⟩ : Sieve).unmatched o =
        (⟨.ofList names, b, policy⟩ : Sieve).unmatched o

/-- **A pass accounts for every name on its list**, whatever the boundary and in whatever order and
how often the names were given. -/
theorem sieveLines_accounted (names : List Name) (b : Boundary) (policy : Policy)
    {doc : List Line} {o : Outcome}
    (ho : (⟨.ofList names, b, policy⟩ : Sieve).sieveLines doc = .ok o) :
    Accounted names b policy doc o := by
  constructor
  case ascending => exact AllowList.pairwise_unmatched _ _
  case mem_unmatched =>
    intro n
    rw [unmatched, AllowList.mem_unmatched, AllowList.mem_ofList]
    simp
  case complete =>
    apply AllowList.length_unmatched_add
    rw [eq_ofSegments_of_sieveLines ho]
    exact Outcome.mem_keptNames_ofSegments _ _
  case distinct => exact AllowList.size_ofList names
  case of_same_names =>
    intro others hsame
    rw [AllowList.ofList_eq_of_mem_iff hsame]
    exact ⟨ho, rfl⟩

/-- Two blocks of one name and a third one. -/
def sameNameTwice : List Line :=
  ["server.tool('a'".toList, ")".toList, [], "server.tool('a'".toList, ")".toList, [],
    "server.tool('c'".toList, ")".toList, []]

/-- What a pass makes of them, when `a` is on the list. -/
def sameNameTwiceOutcome : Outcome where
  lines := ["server.tool('a'".toList, ")".toList, [], "server.tool('a'".toList, ")".toList, [],
    "  // [FILTERED] c".toList, "  // server.tool('c'".toList, "  // )".toList, []]
  decisions := [⟨['a'], .keep, 1, 2⟩, ⟨['a'], .keep, 4, 5⟩, ⟨['c'], .filter, 7, 8⟩]
  summary := ⟨2, 1⟩
  unclosed := none

theorem accounted_sameNameTwice :
    (⟨.ofList [['d'], ['a'], ['b'], ['d']], Call.serverTool.boundary, .fail⟩ : Sieve).sieveLines
        sameNameTwice = .ok sameNameTwiceOutcome ∧
      sameNameTwiceOutcome.keptNames = [['a'], ['a']] ∧
      (⟨.ofList [['d'], ['a'], ['b'], ['d']], Call.serverTool.boundary, .fail⟩ : Sieve).unmatched
        sameNameTwiceOutcome = [['b'], ['d']] ∧
      Accounted [['d'], ['a'], ['b'], ['d']] Call.serverTool.boundary .fail sameNameTwice
        sameNameTwiceOutcome := by
  have ho : (⟨.ofList [['d'], ['a'], ['b'], ['d']], Call.serverTool.boundary, .fail⟩ :
      Sieve).sieveLines sameNameTwice = .ok sameNameTwiceOutcome := by
    decide +kernel
  exact ⟨ho, by decide, by decide +kernel, sieveLines_accounted _ _ _ ho⟩

end Sieve

end BlockSieve
