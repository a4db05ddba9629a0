/-!
# Columns

Listings are set in columns. A column is one character wider than its longest cell, and widths
count characters. In a right-aligned table the filling stands before the cell, in a
left-aligned one behind it; a left-aligned row ends in a text that belongs to no column.
-/

namespace TinyC.Text

/-- `s` filled up on the left with blanks to `width` characters. -/
def padLeft (width : Nat) (s : String) : String :=
  String.ofList (List.replicate (width - s.length) ' ') ++ s

/-- `s` filled up on the right with blanks to `width` characters. -/
def padRight (width : Nat) (s : String) : String :=
  s ++ String.ofList (List.replicate (width - s.length) ' ')

/-- The position-wise greater of two lists of widths; the longer list keeps its tail. -/
def maxWidths : List Nat → List Nat → List Nat
  | [], ws => ws
  | vs, [] => vs
  | v :: vs, w :: ws => max v w :: maxWidths vs ws

/-- The width of each column of a table. -/
def columnWidths (rows : List (List String)) : List Nat :=
  rows.foldl (fun ws row => maxWidths ws (row.map (·.length + 1))) []

/-- A table with its cells moved to the right, one line a row. -/
def alignRight (rows : List (List String)) : String :=
  let widths := columnWidths rows
  String.join (rows.map fun row => String.join (List.zipWith padLeft widths row) ++ "\n")

/-- A table with its cells moved to the left; each row is its cells and the text after them. -/
def alignLeft (rows : List (List String × String)) : String :=
  let widths := columnWidths (rows.map (·.1))
  String.join (rows.map fun row =>
    String.join (List.zipWith padRight widths row.1) ++ row.2 ++ "\n")

end TinyC.Text
