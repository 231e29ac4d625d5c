/-!
# Number text

How numbers appear in messages and tables.

* `hex` writes a number in base sixteen: lower case, no padding, introduced by `0x`.
* `alignRight` fills a cell with blanks on its left (`length_alignRight`).
-/

namespace MemoryBank.Text

/-- A number in base sixteen, lower case and without padding. -/
def hex (n : Nat) : String := "0x" ++ String.ofList (Nat.toDigits 16 n)

/-- A cell of at least `width` characters, blanks on the left. -/
def alignRight (width : Nat) (cell : String) : String :=
  String.ofList (List.replicate (width - cell.length) ' ') ++ cell

theorem length_alignRight (width : Nat) (cell : String) :
    (alignRight width cell).length = max width cell.length := by
  simp only [alignRight, String.length_append, String.length_ofList, List.length_replicate]
  omega

end MemoryBank.Text
