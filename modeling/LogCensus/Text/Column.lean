/-!
Columns of text. Widths count characters.
-/

namespace LogCensus.Text

def alignRight (width : Nat) (text : String) : String :=
  String.ofList (List.replicate (width - text.length) ' ') ++ text

def alignLeft (width : Nat) (text : String) : String :=
  text ++ String.ofList (List.replicate (width - text.length) ' ')

/-- A text of more than `width` characters keeps its last `width - 1` behind an ellipsis. The
count of kept characters is a machine word, so for a width of zero nothing is kept. -/
def keepTail (text : String) (width : UInt64) : String :=
  let characters := text.toList
  if characters.length ≤ width.toNat then text
  else
    let dropped := (characters.length.toUInt64 - (width - 1)).toNat
    String.ofList ('…' :: characters.drop dropped)

end LogCensus.Text
