/-!
# Bitmaps of slots in use

One bit per heap slot, sixty-four bits to a page. A free block is searched page by page: a block
smaller than a page lies inside one page, a larger one starts at a page.
-/

namespace ScriptMachine

def pageBits : Nat :=
  64

/-- A page with its lowest `n` bits set; all of them from sixty-four on. -/
def lowMask (n : Nat) : UInt64 :=
  .ofNat ((1 <<< min n pageBits) - 1)

/-- The least `i < n` that passes a test. -/
@[specialize] def firstBelow? (test : Nat → Bool) (n : Nat) : Option Nat :=
  go n 0
where
  go : Nat → Nat → Option Nat
    | 0, _ => none
    | left + 1, i => if test i then some i else go left (i + 1)

/-- Which slots are in use. -/
structure Bitmap where
  pages : Array UInt64
  deriving DecidableEq, Inhabited, Repr

namespace Bitmap

/-- A bitmap without set bits that has room for `slots` bits. -/
def empty (slots : Nat) : Bitmap :=
  ⟨Array.replicate ((slots + pageBits - 1) / pageBits) 0⟩

/-- The page with an index; empty past the last page. -/
def page (b : Bitmap) (index : Nat) : UInt64 :=
  b.pages.getD index 0

def pageBit (page : UInt64) (bit : Nat) : Bool :=
  page &&& (1 <<< UInt64.ofNat bit) != 0

def isSet (b : Bitmap) (slot : Nat) : Bool :=
  pageBit (b.page (slot / pageBits)) (slot % pageBits)

/-- The bits of page `index` that belong to the slots `start..stop`. -/
def pageRange (start stop index : Nat) : UInt64 :=
  let low := max start (index * pageBits)
  let high := min stop (index * pageBits + pageBits)
  lowMask (high - low) <<< UInt64.ofNat (low - index * pageBits)

/-- Sets the bits of the slots `start..stop` in `count` pages from page `index` on. -/
def setPages (start stop : Nat) (b : Bitmap) : (index count : Nat) → Bitmap
  | _, 0 => b
  | index, count + 1 =>
    setPages start stop ⟨b.pages.modify index (· ||| pageRange start stop index)⟩ (index + 1) count

/-- Marks the `length` slots from `start` on as in use. -/
def setRange (b : Bitmap) (start length : Nat) : Bitmap :=
  if length = 0 then b
  else
    let firstPage := start / pageBits
    let lastPage := (start + length - 1) / pageBits
    b.setPages start (start + length) firstPage (lastPage + 1 - firstPage)

def pageCount (page : UInt64) : Nat :=
  (List.range pageBits).countP (pageBit page)

def count (b : Bitmap) : Nat :=
  b.pages.foldl (fun total page => total + pageCount page) 0

/-- The pages as rows of zeros and ones, lowest slot first. -/
def rows (b : Bitmap) : List String :=
  b.pages.toList.map fun page =>
    String.ofList ((List.range pageBits).map fun bit => if pageBit page bit then '1' else '0')

/-! ### Searching for a free block -/

/-- The lowest place in one page where `count` bits in a row are clear. -/
def windowIn? (count : Nat) (page : UInt64) : Option Nat :=
  if page == lowMask pageBits then none
  else
    let mask := lowMask count
    firstBelow? (fun bit => page &&& (mask <<< UInt64.ofNat bit) == 0) (pageBits + 1 - count)

/-- The lowest free window of `count` bits inside one page, from page `index` on. -/
def findWindow? (b : Bitmap) (count : Nat) : (left index : Nat) → Option Nat
  | 0, _ => none
  | left + 1, index =>
    match windowIn? count (b.page index) with
    | some bit => some (index * pageBits + bit)
    | none => b.findWindow? count left (index + 1)

/-- The number of empty pages in a row from page `index` on. -/
def emptyRun (b : Bitmap) : (left index : Nat) → Nat
  | 0, _ => 0
  | left + 1, index => if b.page index == 0 then 1 + b.emptyRun left (index + 1) else 0

/-- Whether a block of `fullPages` pages and `trailing` bits fits at page `index`, where `run` pages
in a row are empty. -/
def fitsAt (b : Bitmap) (fullPages trailing index run : Nat) : Bool :=
  decide (fullPages < run) ||
    (run == fullPages &&
      (trailing == 0 ||
        (decide (index + run < b.pages.size) && b.page (index + run) &&& lowMask trailing == 0)))

/-- The first page from `index` on where a block of `fullPages` pages and `trailing` bits fits. A run
of empty pages that is too short is skipped as a whole. -/
def findPages? (b : Bitmap) (fullPages trailing : Nat) : (left index : Nat) → Option Nat
  | 0, _ => none
  | left + 1, index =>
    if b.pages.size < index + fullPages then none
    else
      let run := b.emptyRun (b.pages.size - index) index
      if b.fitsAt fullPages trailing index run then some (index * pageBits)
      else b.findPages? fullPages trailing left (index + max run 1)

/-- The first free block of `count` slots at an allowed place, if it lies below `capacity`. -/
def findFree? (b : Bitmap) (capacity count : Nat) : Option Nat :=
  let start :=
    if count < pageBits then b.findWindow? count b.pages.size 0
    else b.findPages? (count / pageBits) (count % pageBits) (b.pages.size + 1) 0
  start.filter fun start => decide (start + count ≤ capacity)

end Bitmap

end ScriptMachine
