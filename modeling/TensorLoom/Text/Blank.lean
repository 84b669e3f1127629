/-
# Blank characters and words

A character is blank when it has the Unicode property White_Space: 25 code points.
-/

namespace TensorLoom.Text

/-- The blank characters as ranges of code points, ends included. -/
def blankRanges : List (Nat × Nat) :=
  [(0x09, 0x0D), (0x20, 0x20), (0x85, 0x85), (0xA0, 0xA0), (0x1680, 0x1680), (0x2000, 0x200A),
   (0x2028, 0x2029), (0x202F, 0x202F), (0x205F, 0x205F), (0x3000, 0x3000)]

def isBlank (c : Char) : Bool := blankRanges.any fun (lo, hi) => lo ≤ c.toNat && c.toNat ≤ hi

/-- One more character in front of a partly read word and the words after it. -/
def wordStep (c : Char) : List Char × List (List Char) → List Char × List (List Char)
  | (word, rest) =>
    if isBlank c then ([], if word = [] then rest else word :: rest) else (c :: word, rest)

/-- The maximal runs of characters that are not blank. -/
def wordsOf (cs : List Char) : List (List Char) :=
  match cs.foldr wordStep ([], []) with
  | ([], rest) => rest
  | (word, rest) => word :: rest

/-- The words of a text. -/
def words (s : String) : List String := (wordsOf s.toList).map String.ofList

/-- A text without the blanks at its two ends. -/
def trim (s : String) : String :=
  String.ofList ((s.toList.dropWhile isBlank).reverse.dropWhile isBlank).reverse

end TensorLoom.Text
