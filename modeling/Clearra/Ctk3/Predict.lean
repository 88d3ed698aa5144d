import Clearra.Ctk3.Cell

/-!
# Predicting the next field

Page after page of a document differ by little: the piece of the operation is locked, full rows are
cleared, a field turns grey or is mirrored. Both sides compute the same predictions from pages they
already have, and only the difference is written.

The encoder's and the decoder's functions are the same text twice. Here they share the parts that
touch no vector; a cast to `usize` is a parameter of these parts.
-/

namespace Clearra.Ctk3

def grayscaleCodes (codes : List Nat) (count : Nat) : List Nat :=
  (List.range count).map fun index => if codes.getD index 0 ≠ 0 then 1 else 0

def mirrorColor : Nat → Nat
  | 5 => 6
  | 6 => 5
  | 7 => 8
  | 8 => 7
  | code => code

/-- What `mirror_codes` stores where, in the order of its loops. -/
def mirrorStores (source : List Nat) (sourceHeight width targetHeight : Nat) : List (Nat × Nat) :=
  (List.range (min sourceHeight targetHeight)).flatMap fun y =>
    (List.range width).map fun x =>
      (y * width + (width - x - 1), mirrorColor (source.getD (y * width + x) 0))

/-- The cells of the operation, if there is one. -/
def footprint (page : NormalizedPage) : List (Int × Int) :=
  match page.operation with
  | some operation => operationCells operation
  | none => []

/-- One more than the top row of the cells. -/
def operationHeight (occupied : List (Int × Int)) : Int :=
  occupied.foldl (fun height cell => max height (cell.2 + 1)) 0

def lockCode (flags : Ctk3PageFlags) (operation : Ctk3Operation) : Nat :=
  if flags.colorize then operation.piece.wireIndex + 2 else 1

/-- `chunks_exact(width)`. -/
def fieldRows (width : Nat) (cells : List Nat) : List (List Nat) :=
  (List.range (cells.length / width)).map fun y => Lib.slice cells (y * width) ((y + 1) * width)

/-- Rows as they are after a lock: without the full ones, or in grey. -/
def transformRows (width : Nat) (clearRows grayscale : Bool) (cells : List Nat) : List Nat :=
  ((fieldRows width cells).filter fun row => !(clearRows && row.all (· ≠ 0))).flatMap
    (List.map fun code => if grayscale && code ≠ 0 then 1 else code)

section

variable (cast : Int → Nat)

/-- `source_height`. -/
def lockedHeight (page : NormalizedPage) : Nat :=
  let top := operationHeight (footprint page)
  if 0 ≤ top ∧ cast top ≤ maxHeight then max page.height (cast top) else page.height

def insideField (width height : Nat) (cell : Int × Int) : Bool :=
  decide (0 ≤ cell.1 ∧ cast cell.1 < width ∧ 0 ≤ cell.2 ∧ cast cell.2 < height)

def cellIndex (width : Nat) (cell : Int × Int) : Nat := cast cell.2 * width + cast cell.1

/-- What is stored when the operation locks. -/
def lockStores (page : NormalizedPage) (width : Nat) (operation : Ctk3Operation) :
    List (Nat × Nat) :=
  (footprint page).map fun cell => (cellIndex cast width cell, lockCode page.flags operation)

end

/-! ## The encoder's side -/

def storeAll (stores : List (Nat × Nat)) (cells : List Nat) : List Nat :=
  stores.foldl (fun cells store => cells.set store.1 store.2) cells

def mirrorCodes (source : List Nat) (sourceHeight width targetHeight : Nat) : List Nat :=
  storeAll (mirrorStores source sourceHeight width targetHeight)
    (List.replicate (targetHeight * width) 0)

/-- The field with the operation locked, if it is to lock and its cells are free. -/
def lockedCells (page : NormalizedPage) (width : Nat) : List Nat :=
  let height := lockedHeight Int.toNat page
  let cells := fitCodes page.codes (height * width)
  match page.operation with
  | some operation =>
    if page.flags.lock ∧ (footprint page).all (fun cell =>
        insideField Int.toNat width height cell &&
          cells.getD (cellIndex Int.toNat width cell) 0 == 0) then
      storeAll (lockStores Int.toNat page width operation) cells
    else cells
  | none => cells

def predictLockedCodes (page : NormalizedPage) (width targetHeight : Nat)
    (clearRows grayscale : Bool) : List Nat :=
  fitCodes (transformRows width clearRows grayscale (lockedCells page width)) (targetHeight * width)

/-! ## The decoder's side -/

/-- `as usize` of a number that is not negative. -/
def Build.cast (b : Build) (value : Int) : Nat := value.toNat % 2 ^ b.pointerBits

def storedAll : List (Nat × Nat) → List Nat → Read (List Nat)
  | [], cells => pure cells
  | (index, code) :: stores, cells => do
    let cells ← stored cells index code
    storedAll stores cells

namespace Decoder

def mirrorCodes (source : List Nat) (sourceHeight width targetHeight : Nat) : Read (List Nat) :=
  storedAll (mirrorStores source sourceHeight width targetHeight)
    (List.replicate (targetHeight * width) 0)

/-- Whether every cell is inside the field and free there. -/
def cellsFree (b : Build) (width height : Nat) (cells : List Nat) : List (Int × Int) → Read Bool
  | [] => pure true
  | cell :: rest =>
    if insideField b.cast width height cell then do
      let code ← indexed cells (cellIndex b.cast width cell)
      if code = 0 then cellsFree b width height cells rest else pure false
    else pure false

def lockedCells (b : Build) (page : NormalizedPage) (width : Nat) : Read (List Nat) :=
  let height := lockedHeight b.cast page
  let cells := fitCodes page.codes (height * width)
  match page.operation with
  | some operation =>
    if page.flags.lock then do
      let free ← cellsFree b width height cells (footprint page)
      if free then storedAll (lockStores b.cast page width operation) cells else pure cells
    else pure cells
  | none => pure cells

def predictLockedCodes (b : Build) (page : NormalizedPage) (width targetHeight : Nat)
    (clearRows grayscale : Bool) : Read (List Nat) := do
  let cells ← lockedCells b page width
  pure (fitCodes (transformRows width clearRows grayscale cells) (targetHeight * width))

end Decoder

end Clearra.Ctk3
