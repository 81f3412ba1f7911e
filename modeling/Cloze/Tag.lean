/-!
# Tags

A tag groups the offers shown to a writer. Groups of lower priority come first; equal priorities
are told apart by the name, and equal names by the color.
-/

namespace Cloze

/-- The group an offer is shown in. -/
structure Tag where
  name : String
  /-- Alpha, red, green and blue, eight bits each. -/
  color : UInt32
  priority : Int
deriving DecidableEq

namespace Tag

/-- The group of everything that was given no other. -/
def plain : Tag := ⟨"no_tag", 0xFFCCCCCC, 10⟩

instance : Inhabited Tag := ⟨plain⟩

/-- By priority, then by name, then by color. -/
protected def compare (a b : Tag) : Ordering :=
  (compare a.priority b.priority).then
    ((compare a.name b.name).then (compare a.color b.color))

protected def le (a b : Tag) : Bool :=
  (a.compare b).isLE

/-- One hexadecimal digit, in capitals. -/
def hexDigit (n : Nat) : Char :=
  if n < 10 then Char.ofNat ('0'.toNat + n) else Char.ofNat ('A'.toNat + (n - 10))

/-- The last `width` hexadecimal digits of `n`, highest first. -/
def hexDigits : (width : Nat) → (n : Nat) → List Char
  | 0, _ => []
  | width + 1, n => hexDigits width (n / 16) ++ [hexDigit (n % 16)]

/-- The color as `#RRGGBB`; alpha is left out. -/
def hexColor (t : Tag) : String :=
  String.ofList ('#' :: hexDigits 6 (t.color.toNat % 0x1000000))

/-- Stable: tags that compare equal keep their order. -/
def sort (ts : List Tag) : List Tag :=
  ts.mergeSort Tag.le

end Tag

end Cloze
