/-! Where the tags of one name first close more than they open. The balances of the lines are swept
once from the last line to the first; a stack of lower and lower heights holds the answers. -/
namespace MarkupOutline.Block

/-- Opening minus closing tags of one name in one line. -/
structure Balance where
  line : Nat
  sum : Int
deriving DecidableEq

/-- Note a tag. Balances are kept newest first and lines never go back, so only the newest balance
can be that of the same line. -/
def record (line : Nat) (weight : Int) : List Balance → List Balance
  | [] => [⟨line, weight⟩]
  | newest :: older =>
    if newest.line = line then ⟨line, newest.sum + weight⟩ :: older
    else ⟨line, weight⟩ :: newest :: older

/-- The running sum of balances right after a line. -/
structure Height where
  line : Nat
  level : Int
deriving DecidableEq

/-- A line with tags of the name, and the first line from there on by whose end more tags have been
closed than opened. -/
structure Entry where
  line : Nat
  closing : Option Nat
deriving DecidableEq

/-- The state of the sweep: the height before the lines seen so far, measured from the end of the
text, the heights that a line further up may fall to, and the entries made. -/
structure Sweep where
  level : Int := 0
  lower : List Height := []
  entries : List Entry := []

/-- Heights that are not below the new level can never be reached first and are dropped. -/
def Sweep.step (sweep : Sweep) (balance : Balance) : Sweep :=
  let level := sweep.level - balance.sum
  let lower := (⟨balance.line, sweep.level⟩ :: sweep.lower).dropWhile fun height =>
    level ≤ height.level
  ⟨level, lower, ⟨balance.line, lower.head?.map Height.line⟩ :: sweep.entries⟩

/-- The entries of one name, by ascending line. -/
structure ClosingTable where
  entries : Array Entry

namespace ClosingTable

def ofBalances (balances : List Balance) : ClosingTable :=
  ⟨(balances.foldl Sweep.step {}).entries.toArray⟩

/-- The position in `[low, high]` of the first entry below a line, by halving. -/
def firstBelow (entries : Array Entry) (line low high : Nat) : Nat :=
  if low < high then
    let middle := (low + high) / 2
    if entries[middle]?.any (fun entry => line < entry.line) then firstBelow entries line low middle
    else firstBelow entries line (middle + 1) high
  else low
termination_by high - low

/-- The line that closes what an opening tag at the end of line `opening` opens. -/
def closingLine? (table : ClosingTable) (opening : Nat) : Option Nat :=
  table.entries[firstBelow table.entries opening 0 table.entries.size]?.bind Entry.closing

end ClosingTable

end MarkupOutline.Block
