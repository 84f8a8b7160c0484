/-!
Rows of a text. A row ends at a line feed, and one carriage return right before
that line feed belongs to the row's end. A last row without a line feed counts
when it holds anything, and keeps its carriage return.
-/

namespace OnePass.Text

/-- The content of a row that ended at a line feed, given in reverse. -/
def closeRow : List Char → List Char
  | '\r' :: cs => cs.reverse
  | cs => cs.reverse

/-- Rows of a text whose current row has been read up to `row` (in reverse) and whose
finished rows are `done` (in reverse). -/
def rowsFrom (done : List (List Char)) (row : List Char) : List Char → List (List Char)
  | [] => (if row.isEmpty then done else row.reverse :: done).reverse
  | c :: cs =>
    if c = '\n' then rowsFrom (closeRow row :: done) [] cs
    else rowsFrom done (c :: row) cs

/-- The rows of a text, in order. -/
def rows (cs : List Char) : List (List Char) :=
  rowsFrom [] [] cs

/-- The parts of a text before and after the first `separator`, or nothing when the text
has none. -/
def cut (separator : Char) (cs : List Char) : Option (List Char × List Char) :=
  match cs.dropWhile (· != separator) with
  | [] => none
  | _ :: after => some (cs.takeWhile (· != separator), after)

@[simp]
theorem rows_nil : rows [] = [] := rfl

end OnePass.Text
