import BlockSieve.AllowList
import BlockSieve.Text.Line

/-!
Boundaries: what makes a line of a document open a block, and what makes one
close it. Both questions are put with the whole document at hand, so a
boundary may look past the line it is asked about.
-/

namespace BlockSieve

/-- Where blocks open, under which name, and where they close. Lines are counted from zero. -/
structure Boundary where
  opens : List Line → Nat → Option Name
  closes : List Line → Nat → Bool

namespace Boundary

/-- Blocks between an opening word, which the name follows on the same line, and a closing line. It
is the plainest of the boundaries that another language of documents may bring: each question is
about one line. -/
def delimited (opening closing : Text) : Boundary where
  opens doc i := doc[i]?.bind (Text.after? opening)
  closes doc i := decide (doc[i]? = some closing)

end Boundary

end BlockSieve
