/-! Texts parted at a mark. -/

namespace PatternLoom

/-- The parts of a text between marks. There is always one more than there are marks. -/
def parts (mark : Char) : List Char → List (List Char)
  | [] => [[]]
  | c :: cs =>
    if c = mark then [] :: parts mark cs
    else match parts mark cs with
      | [] => [[c]]
      | part :: more => (c :: part) :: more

end PatternLoom
