import Mathlib.Data.List.DropRight
import Mathlib.Tactic

/-!
# Text of command lines

The string helpers of `Commands.cpp` and the members of `std::string` they use. A search for a
text returns what stands before and after its first occurrence.
-/
namespace FtfSystems.Shell

/-- The characters of a C string. -/
abbrev Line := List Char

/-- `isNumber`; the empty text is one. -/
def isNumber (str : Line) : Bool := str.all Char.isDigit

/-- `_ltrim`; `WHITESPACE` is the space alone. -/
def ltrim (s : Line) : Line := s.dropWhile (· = ' ')

/-- `_rtrim`. -/
def rtrim (s : Line) : Line := s.rdropWhile (· = ' ')

/-- `_trim`. -/
def trim (s : Line) : Line := rtrim (ltrim s)

/-- `isspace`, where the extraction of a word from a stream stops. -/
def isSpace (c : Char) : Bool := c = ' ' ∨ 9 ≤ c.toNat ∧ c.toNat ≤ 13

/-- The words that `_parseCommandLine` stores. -/
def parseCommandLine (cmdLine : Line) : List Line :=
  ((trim cmdLine).splitOnP isSpace).filter (· ≠ [])

/-- `_parseCat`. -/
def parseCat (cmdLine : Line) : List Line :=
  let tokens := cmdLine.splitOn ' '
  tokens.dropLast.filter (· ≠ []) ++ [tokens.getLastD []]

/-- `_isBackgroundComamnd`. -/
def isBackgroundCommand (cmdLine : Line) : Bool := (rtrim cmdLine).getLast? = some '&'

/-- `erase(remove(begin, end, c), end)`. -/
def eraseChar (c : Char) (s : Line) : Line := s.filter (· ≠ c)

theorem eraseChar_eq_self {c : Char} {s : Line} (h : c ∉ s) : eraseChar c s = s := by
  rw [eraseChar, List.filter_eq_self]
  intro d hd
  simpa using fun hdc : d = c => h (hdc ▸ hd)

/-- `erase(find_last_of(c))`; nothing is erased when there is no `c`. -/
def eraseFromLast (c : Char) (s : Line) : Line :=
  if c ∈ s then (s.rdropWhile (· ≠ c)).dropLast else s

/-- The text before and after the first occurrence of `barrier`. -/
def splitFirst (barrier : Line) : Line → Option (Line × Line)
  | [] => none
  | c :: s =>
    if barrier <+: c :: s then some ([], (c :: s).drop barrier.length)
    else (splitFirst barrier s).map fun (left, right) => (c :: left, right)

/-- `find(barrier) != npos`. -/
def contains (barrier s : Line) : Bool := (splitFirst barrier s).isSome

/-- The number that `strtol` reads from a text in base ten, before it is clamped. -/
def leadingNumber (s : Line) : Option ℤ :=
  let s := s.dropWhile isSpace
  let negative := s.head? = some '-'
  let s := if negative ∨ s.head? = some '+' then s.tail else s
  let digits := s.takeWhile Char.isDigit
  if digits = [] then none
  else
    let value : ℤ := digits.foldl (fun n c => 10 * n + (c.toNat - '0'.toNat : ℤ)) 0
    some (if negative then -value else value)

/-- `strtol(s, nullptr, 10)`, a 64-bit `long`. -/
def strtol (s : Line) : ℤ := max (-2 ^ 63) (min (2 ^ 63 - 1) ((leadingNumber s).getD 0))

/-- A `long` passed as an `int`. -/
def toInt (n : ℤ) : ℤ := (n + 2 ^ 31) % 2 ^ 32 - 2 ^ 31

/-- `std::stoi`; an exception is `none`. -/
def stoi (s : Line) : Option ℤ :=
  (leadingNumber s).filter fun n => -2 ^ 31 ≤ n ∧ n < 2 ^ 31

end FtfSystems.Shell
