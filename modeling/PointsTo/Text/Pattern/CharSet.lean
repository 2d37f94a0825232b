import PointsTo.Text.Category
import PointsTo.Text.Folding
import PointsTo.Text.Script
/-!
# Sets of characters

A set is given by ranges of code points. It may stand for everything else,
and it may be blind to case: it then holds every character that differs
from one of its own in case only. Sets are known by letters, by the names
used between brackets, and by the names of Unicode properties.
-/

namespace PointsTo

/-- A set of characters as closed ranges of code points. -/
abbrev CharRanges := List (Nat × Nat)

/-- The characters inside, or if negated outside, of some ranges. -/
structure CharSet where
  ranges : CharRanges
  negated : Bool := false
  /-- Characters that differ in case only are not told apart. -/
  foldCase : Bool := false
  deriving DecidableEq, Repr, Inhabited

namespace CharSet

/-- Whether a code point is inside the ranges. -/
def inside (ranges : CharRanges) (n : Nat) : Bool := ranges.any fun (a, b) => a ≤ n && n ≤ b

/-- Whether a character is in the set. -/
def contains (s : CharSet) (c : Char) : Bool :=
  (if s.foldCase then (Text.Folding.family c.toNat).any (inside s.ranges)
   else inside s.ranges c.toNat) != s.negated

/-- The last code point. -/
def lastCode : Nat := 0x10FFFF

/-! ## Letters -/

/-- The digits. -/
def digits : CharRanges := [(48, 57)]

/-- The characters of words. -/
def wordChars : CharRanges := [(48, 57), (65, 90), (95, 95), (97, 122)]

/-- Tab, newline, form feed, carriage return and space. -/
def blanks : CharRanges := [(9, 10), (12, 13), (32, 32)]

/-- The set an escaped letter stands for, and whether it is negated. -/
def ofLetter? : Char → Option (CharRanges × Bool)
  | 'd' => some (digits, false)
  | 'D' => some (digits, true)
  | 'w' => some (wordChars, false)
  | 'W' => some (wordChars, true)
  | 's' => some (blanks, false)
  | 'S' => some (blanks, true)
  | _ => none

/-! ## Names between brackets -/

/-- The sets known by name inside brackets. -/
def ofName? : String → Option CharRanges
  | "alnum" => some [(48, 57), (65, 90), (97, 122)]
  | "alpha" => some [(65, 90), (97, 122)]
  | "ascii" => some [(0, 127)]
  | "blank" => some [(9, 9), (32, 32)]
  | "cntrl" => some [(0, 31), (127, 127)]
  | "digit" => some digits
  | "graph" => some [(33, 126)]
  | "lower" => some [(97, 122)]
  | "print" => some [(32, 126)]
  | "punct" => some [(33, 47), (58, 64), (91, 96), (123, 126)]
  | "space" => some [(9, 13), (32, 32)]
  | "upper" => some [(65, 90)]
  | "word" => some wordChars
  | "xdigit" => some [(48, 57), (65, 70), (97, 102)]
  | _ => none

/-! ## Properties -/

/-- The long names of categories and of their classes. -/
def categoryNames : List (String × String) :=
  [("Other", "C"), ("Control", "Cc"), ("cntrl", "Cc"), ("Format", "Cf"), ("Unassigned", "Cn"),
   ("Private_Use", "Co"), ("Surrogate", "Cs"), ("Letter", "L"), ("Cased_Letter", "LC"),
   ("Lowercase_Letter", "Ll"), ("Modifier_Letter", "Lm"), ("Other_Letter", "Lo"),
   ("Titlecase_Letter", "Lt"), ("Uppercase_Letter", "Lu"), ("Mark", "M"),
   ("Combining_Mark", "M"), ("Spacing_Mark", "Mc"), ("Enclosing_Mark", "Me"),
   ("Nonspacing_Mark", "Mn"), ("Number", "N"), ("Decimal_Number", "Nd"), ("digit", "Nd"),
   ("Letter_Number", "Nl"), ("Other_Number", "No"), ("Punctuation", "P"), ("punct", "P"),
   ("Connector_Punctuation", "Pc"), ("Dash_Punctuation", "Pd"), ("Close_Punctuation", "Pe"),
   ("Final_Punctuation", "Pf"), ("Initial_Punctuation", "Pi"), ("Other_Punctuation", "Po"),
   ("Open_Punctuation", "Ps"), ("Symbol", "S"), ("Currency_Symbol", "Sc"),
   ("Modifier_Symbol", "Sk"), ("Math_Symbol", "Sm"), ("Other_Symbol", "So"),
   ("Separator", "Z"), ("Line_Separator", "Zl"), ("Paragraph_Separator", "Zp"),
   ("Space_Separator", "Zs")]

/-- Names are compared by their letters, whatever the case. -/
def bareName (name : String) : String :=
  String.ofList ((name.toList.filter fun c => c ≠ '_' && c ≠ '-' && c ≠ ' ').map Char.toLower)

/-- Whether a category goes by a short name, its own or that of a class
of categories. -/
def inCategory (name : String) (c : Text.Category) : Bool :=
  name = bareName c.name || name = bareName (String.ofList c.major.toList) ||
    (name = "lc" && [Text.Category.upperLetter, .lowerLetter, .titleLetter].contains c)

/-- The code points of a category or a class of categories, by its short
name. -/
def ofCategory? (name : String) : Option CharRanges :=
  if Text.Category.all.any fun (c, _) => inCategory name c then
    some (Text.Category.ranges (inCategory name))
  else none

/-- The code points that have the property of that name: all or the
assigned ones, a category, a script, or a category by its long name. -/
def ofProperty? (name : String) : Option CharRanges :=
  let name := bareName name
  if name = "any" then some [(0, lastCode)]
  else if name = "assigned" then some (Text.Category.ranges (· ≠ .unassigned))
  else if name = "ascii" then some [(0, 127)]
  else
    (ofCategory? name).or <|
      (Text.Script.ranges? fun s => bareName s = name).or <|
        (categoryNames.find? fun (long, _) => bareName long = name).bind
          fun (_, short) => ofCategory? (bareName short)

end CharSet

end PointsTo
