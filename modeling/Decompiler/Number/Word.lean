/-!
Machine words of 64 bits.  Arithmetic on them wraps around.
-/

namespace Decompiler

abbrev Word := BitVec 64

/-- The decimal text of a word read as a signed number. -/
def Word.text (w : Word) : String := toString w.toInt

end Decompiler
