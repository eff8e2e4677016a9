/-!
Blank characters, and the division of texts at them. Blank is what Unicode gives the property
`White_Space`.
-/

namespace TwoLevel.Text

/-- The blank characters as closed ranges of code points. -/
def blankRanges : List (Nat × Nat) :=
  [(0x09, 0x0D), (0x20, 0x20), (0x85, 0x85), (0xA0, 0xA0), (0x1680, 0x1680), (0x2000, 0x200A),
    (0x2028, 0x2029), (0x202F, 0x202F), (0x205F, 0x205F), (0x3000, 0x3000)]

def isBlank (c : Char) : Bool :=
  blankRanges.any fun range => range.1 ≤ c.toNat && c.toNat ≤ range.2

def trim (s : List Char) : List Char :=
  ((s.dropWhile isBlank).reverse.dropWhile isBlank).reverse

variable {α : Type}

/-- Puts an element in front of pieces: a cut starts a new piece, any other extends the first. -/
def cutBefore (cut : α → Bool) (a : α) : List (List α) → List (List α)
  | [] => if cut a then [[], []] else [[a]]
  | piece :: rest => if cut a then [] :: piece :: rest else (a :: piece) :: rest

/-- The pieces between the elements that are cuts, one more than there are cuts. -/
def pieces (cut : α → Bool) (s : List α) : List (List α) :=
  s.foldr (cutBefore cut) [[]]

def fields (cut : α → Bool) (s : List α) : List (List α) :=
  (pieces cut s).filter (!·.isEmpty)

def words (s : List Char) : List String := (fields isBlank s).map .ofList

end TwoLevel.Text
