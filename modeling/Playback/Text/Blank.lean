import Playback.Text.Runs

/-!
# Blank space

The Unicode property White_Space, and what is cut off or split at it.
-/

namespace Playback.Text

def blankRuns : Runs := [
  (0x9, 0xD), (0x20, 0x20), (0x85, 0x85), (0xA0, 0xA0), (0x1680, 0x1680), (0x2000, 0x200A),
  (0x2028, 0x2029), (0x202F, 0x202F), (0x205F, 0x205F), (0x3000, 0x3000)]

def isBlank (c : Char) : Bool :=
  blankRuns.has c

def dropTailWhile (p : Char → Bool) (cs : List Char) : List Char :=
  (cs.reverse.dropWhile p).reverse

def dropEndsWhile (p : Char → Bool) (cs : List Char) : List Char :=
  dropTailWhile p (cs.dropWhile p)

def trimBlanks (s : String) : String :=
  String.ofList (dropEndsWhile isBlank s.toList)

/-- The maximal runs of characters that are not blank. `word` holds, last first, the run being read. -/
def wordsFrom (word : List Char) : List Char → List (List Char)
  | [] => if word.isEmpty then [] else [word.reverse]
  | c :: rest =>
    if isBlank c then
      if word.isEmpty then wordsFrom [] rest else word.reverse :: wordsFrom [] rest
    else
      wordsFrom (c :: word) rest

/-- The words of a text: what stands between blanks. -/
def words (s : String) : List String :=
  (wordsFrom [] s.toList).map String.ofList

end Playback.Text
