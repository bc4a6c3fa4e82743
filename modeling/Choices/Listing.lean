/-
# `Choices.Listing` — items as printed lines

An item is printed as its elements in brackets, separated by a comma and a
blank, on a line of its own.  Elements are printed as they are, without
quotes, so a listing can be read back only where no element holds a line
feed or that separator; numbers never do.
-/

namespace Choices.Listing

def separator : String := ", "

def line (elements : List String) : String :=
  "[" ++ separator.intercalate elements ++ "]\n"

def lines (items : List (List String)) : String :=
  String.join (items.map line)

/-- The lines of a list of items that hold numbers. -/
def numberLines (items : List (List Nat)) : String :=
  lines (items.map (·.map Nat.repr))

/-- The line of a count. -/
def countLine (count : Nat) : String :=
  count.repr ++ "\n"

end Choices.Listing
