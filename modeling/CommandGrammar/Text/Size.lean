/-!
# Sizes

Sizes are counted in bytes and added up. A character takes one to four bytes.
-/

namespace CommandGrammar

/-- What a sum of sizes starts from. The instance is found before any other zero, so sums are the
same terms wherever they stand, whichever zeros are known there. -/
scoped instance zeroSize : Zero Nat := ⟨0⟩

/-- How many bytes a text has. -/
def byteSize (cs : List Char) : Nat :=
  (cs.map Char.utf8Size).sum

end CommandGrammar
