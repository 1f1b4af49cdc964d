/-!
Cutting text into pieces: at one character, at line ends, and the reading of foreign line ends.
-/
namespace ScopeLint.Text

/-- The pieces between occurrences of `sep`; there is always at least one. -/
def splitAt (sep : Char) : List Char → List (List Char)
  | [] => [[]]
  | c :: rest =>
    if c = sep then [] :: splitAt sep rest
    else match splitAt sep rest with
      | piece :: pieces => (c :: piece) :: pieces
      | [] => [[c]]

/-- The piece after the last occurrence of `sep`. -/
def lastPiece (sep : Char) (s : List Char) : List Char :=
  (s.reverse.takeWhile (· ≠ sep)).reverse

/-- A carriage return, alone or before a line feed, reads as one line feed. -/
def readLineEnds : List Char → List Char
  | [] => []
  | '\r' :: '\n' :: rest => '\n' :: readLineEnds rest
  | c :: rest => (if c = '\r' then '\n' else c) :: readLineEnds rest

/-- The characters that end a line of a word list, `\r\n` apart. -/
def isLineEnd (c : Char) : Bool :=
  let n := c.toNat
  (0x0A ≤ n && n ≤ 0x0D) || (0x1C ≤ n && n ≤ 0x1E) || n == 0x85 || n == 0x2028 || n == 0x2029

/-- The lines of a word list. What follows the last line end is a line only if it holds
something. -/
def wordLines : List Char → List (List Char)
  | [] => []
  | '\r' :: '\n' :: rest => [] :: wordLines rest
  | c :: rest =>
    if isLineEnd c then [] :: wordLines rest
    else match wordLines rest with
      | line :: lines => (c :: line) :: lines
      | [] => [[c]]

end ScopeLint.Text
