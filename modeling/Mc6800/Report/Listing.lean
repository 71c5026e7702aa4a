import Mc6800.Assembly.Basic
import Mc6800.Terminal
import Mc6800.Text.Lines

/-!
# Listings

An assembly beside its source: the address and the code of each line in sixteen columns, and behind
them the line as it is written. The message of a fault follows its line.
-/

set_option autoImplicit false

namespace Mc6800

namespace PlacedLine

/-- The sixteen columns in front of a line of source: blank without code, else the address and the
code, which a faulty line lacks. -/
def columns (l : PlacedLine) : Text :=
  match l.outcome with
  | .empty => List.replicate 16 ' '
  | .bytes code => Text.ofWord l.address ++ "  " ++ (Text.ofBytes code).rightpad 8 ' ' ++ "  "
  | .fault .. => Text.ofWord l.address ++ List.replicate 12 ' '

/-- The row of a line of source, or the two rows of a faulty one. -/
def listingRow (l : PlacedLine) (line : Text) : Text :=
  match l.outcome with
  | .empty | .bytes _ => l.columns ++ line
  | .fault .. => l.columns ++ line ++ "\n" ++ List.replicate 6 ' ' ++ l.outcome.render

end PlacedLine

namespace Terminal

/-- What printing the row of a line puts out. Faulty lines are red. -/
def putListingRow (t : Terminal) (channel : Channel) (l : PlacedLine) (line : Text) : Text :=
  let row := l.listingRow line
  t.putLine channel (if l.outcome.isFault then t.ink .red row else row)

/-- What printing an assembly beside a source puts out. -/
def putListing (t : Terminal) (channel : Channel) (a : Assembly) (source : Text) : Text :=
  (a.lines.zip (Text.lines source)).flatMap fun (l, line) => t.putListingRow channel l line

/-- What printing labels puts out: each in twelve columns or more before its address. -/
def putLabels (t : Terminal) (channel : Channel) (labels : LabelTable) : Text :=
  t.putLines channel <| labels.toList.map fun (label, address) =>
    label.rightpad 12 ' ' ++ " $" ++ Text.ofWord address

end Terminal

end Mc6800
