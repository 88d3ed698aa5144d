import Clearra.Ctk3.Bitstream

/-!
# Fields of colours

A field is a list of colour codes. The encoder writes it in every way it knows and keeps the shortest:
palette indices, runs, an occupancy mask with the colours of the occupied cells, combination ranks,
or the difference to a field that both sides already have. The decoder is told which one by a mode
number in front, and trusts nothing after it.
-/

namespace Clearra.Ctk3

/-! ## Palettes -/

/-- Codes are at most 8. -/
def uniqueCodes (codes : List Nat) : List Nat := (List.range 9).filter (codes.contains ·)

def colorMask (codes : List Nat) : Nat := codes.foldl (fun mask code => mask ||| 2 ^ code) 0

def paletteFromMask (mask minimum : Nat) : List Nat :=
  (List.range' minimum (9 - minimum)).filter mask.testBit

/-- `previous.get(index).copied().unwrap_or(0)` for the first `count` indices. -/
def fitCodes (codes : List Nat) (count : Nat) : List Nat :=
  (List.range count).map (codes.getD · 0)

/-- The positions are increasing, so that `binary_search` finds what is there. -/
def removeRelativePositions (values positions : List Nat) : List Nat :=
  (values.zipIdx.filter fun (_, cursor) => !positions.contains cursor).map Prod.fst

/-! ## Writing -/

/-- A candidate, written from scratch. -/
abbrev Encoding := Except Ctk3CodecError BitWriter

def singleModeEncoding (mode modeWidth : Nat) : Encoding := writeBits mode modeWidth .empty

/-- The palette contains the code. -/
def writePaletteIndex (palette : List Nat) (code : Nat) : Write :=
  writeBits (palette.idxOf code) (bitsForChoices palette.length)

/-- `unique_codes`, with an entry even for an empty field. -/
def fieldPalette (codes : List Nat) : List Nat :=
  if uniqueCodes codes = [] then [0] else uniqueCodes codes

def paletteEncoding (codes : List Nat) (modeWidth : Nat) : Encoding :=
  (writeBits 0 modeWidth >=> writeBits (colorMask (fieldPalette codes)) 9 >=>
    writeMany (writePaletteIndex (fieldPalette codes)) codes) .empty

def pushRun (runs : List (Nat × Nat)) (code : Nat) : List (Nat × Nat) :=
  match runs.getLast? with
  | none => [(code, 1)]
  | some (last, length) =>
    if last = code then runs.dropLast ++ [(last, length + 1)] else runs ++ [(code, 1)]

def colorRuns (codes : List Nat) : List (Nat × Nat) := codes.foldl pushRun []

def writeRun (run : Nat × Nat) : Write := writeBits run.1 4 >=> writeVarUint (run.2 - 1)

def runLengthEncoding (codes : List Nat) (modeWidth : Nat) : Encoding :=
  (writeBits 1 modeWidth >=> writeVarUint (colorRuns codes).length >=>
    writeMany writeRun (colorRuns codes)) .empty

/-- Which cells differ from the previous field. -/
def changeMask (codes previous : List Nat) : List Bool :=
  codes.zipIdx.map fun (code, index) => decide (code ≠ previous.getD index 0)

def changedCells (codes previous : List Nat) : List (Nat × Nat) :=
  (codes.zipIdx.filter fun (code, index) => decide (code ≠ previous.getD index 0)).map Prod.swap

/-- How many unchanged cells there are in front of a change. -/
def changeGap (prior : Option Nat) (index : Nat) : Nat :=
  match prior with
  | none => index
  | some prior => index - prior - 1

/-- The loop of `delta_encoding`. -/
def writeChanges : Option Nat → List (Nat × Nat) → Write
  | _, [] => pure
  | prior, (index, code) :: changes =>
    writeVarUint (changeGap prior index) >=> writeBits code 4 >=> writeChanges (some index) changes

def deltaEncoding (codes previous : List Nat) (modeWidth : Nat) : Encoding :=
  (writeBits 2 modeWidth >=> writeVarUint (changedCells codes previous).length >=>
    writeChanges none (changedCells codes previous)) .empty

/-- The inner loop of `write_occupancy_mask`, from a cell on whose run has begun. -/
def writeMaskRuns (value : Bool) (runLength : Nat) : List Bool → Write
  | [] => writeVarUint (runLength - 1)
  | next :: rest =>
    if next = value then writeMaskRuns value (runLength + 1) rest
    else writeVarUint (runLength - 1) >=> writeMaskRuns next 1 rest

def maskRuns : List Bool → Write
  | [] => pure
  | first :: rest => writeBit first >=> writeMaskRuns first 1 rest

def writeOccupancyMask (occupied : List Bool) : Write := fun w => do
  let raw ← (writeBit false >=> writeMany writeBit occupied) .empty
  let runs ← (writeBit true >=> maskRuns occupied) .empty
  append (if raw.bitLen ≤ runs.bitLen then raw else runs) w

/-- The codes where the mask is set. -/
def maskedCodes (codes : List Nat) (mask : List Bool) : List Nat :=
  ((codes.zip mask).filter Prod.snd).map Prod.fst

def changeMaskEncoding (codes previous : List Nat) (modeWidth : Nat) : Encoding :=
  let changed := changeMask codes previous
  let palette := uniqueCodes (maskedCodes codes changed)
  (writeBits 8 modeWidth >=> writeOccupancyMask changed >=> writeBits (colorMask palette) 9 >=>
    writeMany (writePaletteIndex palette) (maskedCodes codes changed)) .empty

def pushDeltaRun (runs : List (Nat × List Nat)) (change : Nat × Nat) : List (Nat × List Nat) :=
  match runs.getLast? with
  | none => [(change.1, [change.2])]
  | some (start, values) =>
    if start + values.length = change.1 then runs.dropLast ++ [(start, values ++ [change.2])]
    else runs ++ [(change.1, [change.2])]

def deltaRuns (codes previous : List Nat) : List (Nat × List Nat) :=
  (changedCells codes previous).foldl pushDeltaRun []

/-- The first loop of `delta_run_encoding` over the runs. -/
def writeRunBounds : Nat → List (Nat × List Nat) → Write
  | _, [] => pure
  | previousEnd, (start, values) :: runs =>
    writeVarUint (start - previousEnd) >=> writeVarUint (values.length - 1) >=>
      writeRunBounds (start + values.length) runs

def deltaRunEncoding (codes previous : List Nat) (modeWidth : Nat) : Encoding :=
  let runs := deltaRuns codes previous
  let flattened := runs.flatMap Prod.snd
  let palette := uniqueCodes flattened
  (writeBits 9 modeWidth >=> writeBits (colorMask palette) 9 >=> writeVarUint runs.length >=>
    writeRunBounds 0 runs >=> writeMany (writePaletteIndex palette) flattened) .empty

def singleColorDeltaEncoding (codes previous : List Nat) (modeWidth : Nat) :
    Except Ctk3CodecError (Option BitWriter) :=
  let changed := changeMask codes previous
  match uniqueCodes (maskedCodes codes changed) with
  | [color] => ((writeBits 10 modeWidth >=> writeBits color 4 >=> writeOccupancyMask changed)
      .empty).map some
  | _ => .ok none

/-- A set of positions among `total`, as the rank of the combination. -/
def writeCombination (total : Nat) (positions : List Nat) : Write :=
  writeBigBits (combinationRank positions)
    (bitsForBigChoices (combinationCount total positions.length))

def combinatorialDeltaEncoding (codes previous : List Nat) (modeWidth : Nat) : Encoding :=
  let positions := (changedCells codes previous).map Prod.fst
  let values := positions.map (codes.getD · 0)
  let palette := uniqueCodes values
  (writeBits 11 modeWidth >=> writeVarUint positions.length >=>
    writeCombination codes.length positions >=> writeBits (colorMask palette) 9 >=>
    writeMany (writePaletteIndex palette) values) .empty

/-- Which cells are not empty. -/
def occupiedMask (codes : List Nat) : List Bool := codes.map fun code => decide (code ≠ 0)

def occupancyEncoding (codes : List Nat) (modeWidth : Nat) : Encoding :=
  let nonEmpty := codes.filter (· ≠ 0)
  let palette := uniqueCodes nonEmpty
  (writeBits 3 modeWidth >=> writeOccupancyMask (occupiedMask codes) >=>
    writeBits (colorMask palette >>> 1) 8 >=> writeMany (writePaletteIndex palette) nonEmpty) .empty

/-- The places, among those remaining, of the cells of one colour. -/
def relativePositions (codes remaining : List Nat) (code : Nat) : List Nat :=
  (remaining.zipIdx.filter fun (source, _) => codes.getD source 0 = code).map Prod.snd

/-- The loop of `multiset_encoding`. -/
def writeMultiset (codes : List Nat) : List Nat → List Nat → Write
  | [], _ => pure
  | code :: palette, remaining =>
    let positions := relativePositions codes remaining code
    writeVarUint positions.length >=> writeCombination remaining.length positions >=>
      writeMultiset codes palette (removeRelativePositions remaining positions)

def multisetEncoding (codes : List Nat) (modeWidth : Nat) : Encoding :=
  (writeBits 4 modeWidth >=> writeBits (colorMask (fieldPalette codes)) 9 >=>
    writeMultiset codes (fieldPalette codes).dropLast (List.range codes.length)) .empty

/-- The loop of `tetromino_color_encoding`: every colour has four cells. -/
def writeTetrominoes (codes : List Nat) : List Nat → List Nat → Write
  | [], _ => pure
  | code :: palette, remaining =>
    let positions := relativePositions codes remaining code
    writeBigBits (combinationRank positions)
      (bitsForBigChoices (combinationCount remaining.length 4)) >=>
      writeTetrominoes codes palette (removeRelativePositions remaining positions)

/-- The cells that are not empty, by index. -/
def occupiedCells (occupied : List Bool) : List Nat :=
  (occupied.zipIdx.filter Prod.fst).map Prod.snd

/-- The colours of pieces in the field. -/
def tetrominoPalette (codes : List Nat) : List Nat := (List.range' 2 7).filter (codes.count · ≠ 0)

def tetrominoColorEncoding (codes : List Nat) (modeWidth : Nat) :
    Except Ctk3CodecError (Option BitWriter) :=
  let palette := tetrominoPalette codes
  if codes.contains 1 ∨ palette = [] ∨ palette.any (codes.count · ≠ 4) then .ok none
  else ((writeBits 5 modeWidth >=> writeOccupancyMask (occupiedMask codes) >=>
    writeBits (colorMask palette >>> 2) 7 >=>
    writeTetrominoes codes palette.dropLast (occupiedCells (occupiedMask codes))) .empty).map some

def arraysEqualFitted (codes previous : List Nat) : Bool :=
  codes.zipIdx.all fun (code, index) => decide (code = previous.getD index 0)

/-- The candidates of `write_best_cell_encoding` that need four bits for their mode. -/
def wideDeltaCandidates (codes previous : List Nat) (modeWidth : Nat) :
    Except Ctk3CodecError (List BitWriter) :=
  if modeWidth ≥ 4 then do
    let mask ← changeMaskEncoding codes previous modeWidth
    let runs ← deltaRunEncoding codes previous modeWidth
    let single ← singleColorDeltaEncoding codes previous modeWidth
    let combination ← combinatorialDeltaEncoding codes previous modeWidth
    pure ([mask, runs] ++ single.toList ++ [combination])
  else pure []

/-- The candidates of `write_best_cell_encoding` that need a previous field. -/
def deltaCandidates (codes : List Nat) (previous : Option (List Nat)) (modeWidth : Nat) :
    Except Ctk3CodecError (List BitWriter) :=
  match previous with
  | none => pure []
  | some previous => do
    let delta ← deltaEncoding codes previous modeWidth
    let wide ← wideDeltaCandidates codes previous modeWidth
    pure (delta :: wide)

/-- A candidate that may not apply. -/
def candidateIf (p : Prop) [Decidable p] (e : Encoding) : Except Ctk3CodecError (List BitWriter) :=
  if p then e.map fun c => [c] else .ok []

/-- The candidates of `write_best_cell_encoding` behind `include_multiset`. -/
def multisetCandidates (codes : List Nat) (previous : Option (List Nat)) (modeWidth : Nat)
    (includeMultiset : Bool) : Except Ctk3CodecError (List BitWriter) :=
  if includeMultiset then do
    let zero ← candidateIf (codes.all (· = 0)) (singleModeEncoding 7 modeWidth)
    let copy ← candidateIf (previous.any (arraysEqualFitted codes)) (singleModeEncoding 6 modeWidth)
    let multiset ← multisetEncoding codes modeWidth
    let tetrominoes ← tetrominoColorEncoding codes modeWidth
    pure (zero ++ copy ++ [multiset] ++ tetrominoes.toList)
  else pure []

def writeBestCellEncoding (codes : List Nat) (previous : Option (List Nat)) (modeWidth : Nat)
    (includeMultiset : Bool) : Write := fun w => do
  let palette ← paletteEncoding codes modeWidth
  let runs ← runLengthEncoding codes modeWidth
  let occupancy ← occupancyEncoding codes modeWidth
  let deltas ← deltaCandidates codes previous modeWidth
  let others ← multisetCandidates codes previous modeWidth includeMultiset
  append (shortest palette ([runs, occupancy] ++ deltas ++ others)) w

def writeBestPredictedCellEncoding (codes predictor : List Nat) (modeWidth : Nat) : Write :=
  fun w => do
  let delta ← deltaEncoding codes predictor modeWidth
  let mask ← changeMaskEncoding codes predictor modeWidth
  let runs ← deltaRunEncoding codes predictor modeWidth
  let combination ← combinatorialDeltaEncoding codes predictor modeWidth
  let copy ← candidateIf (codes = predictor) (singleModeEncoding 6 modeWidth)
  let single ← singleColorDeltaEncoding codes predictor modeWidth
  append (shortest delta ([mask, runs, combination] ++ copy ++ single.toList)) w

/-! ## Reading -/

def assertColorCode (code : Nat) : Read Unit :=
  if code ≤ 8 then pure () else fail "field color is invalid"

def readPaletteCode (palette : List Nat) (context : String) : Read Nat := do
  let index ← readBits (bitsForChoices palette.length)
  orFail context palette[index]?

def fittedPrevious (previous : Option (List Nat)) (cellCount : Nat) : Read (List Nat) := do
  let previous ← orFail "delta field has no predictor" previous
  pure (fitCodes previous cellCount)

/-- Mode 0. -/
def readPaletteField (cellCount : Nat) : Read (List Nat) := do
  let mask ← readBits 9
  let palette := paletteFromMask mask 0
  failIf (palette = []) "palette is empty"
  readMany (readPaletteCode palette "palette index is invalid") cellCount

section

variable (b : Build)

/-- `read_var_uint()? as usize + k`. -/
def readVarUintPlus (k : Nat) : Read Nat := do
  let value ← readVarUint
  usize b (value + k)

/-- The loop of mode 1. -/
def readRuns (cellCount : Nat) : Nat → List Nat → Read (List Nat)
  | 0, codes => pure codes
  | runs + 1, codes => do
    let code ← readBits 4
    assertColorCode code
    let length ← readVarUintPlus b 1
    let room ← usizeSub b cellCount codes.length
    failIf (length > room) "color run exceeds the field"
    readRuns cellCount runs (codes ++ List.replicate length code)

/-- Mode 1. -/
def readRunField (cellCount : Nat) : Read (List Nat) := do
  let runCount ← readVarUint
  failIf (runCount > cellCount) "color run count is invalid"
  let codes ← readRuns b cellCount runCount []
  failIf (codes.length ≠ cellCount) "color runs do not fill the field"
  pure codes

/-- Where the next change is, `gap` unchanged cells after the last one. -/
def changeIndex (previousIndex : Option Nat) (gap : Nat) : Nat :=
  match previousIndex with
  | none => gap
  | some prior => b.saturatingAdd (b.saturatingAdd prior gap) 1

/-- The loop of mode 2. -/
def readChanges (cellCount : Nat) : Nat → Option Nat → List Nat → Read (List Nat)
  | 0, _, codes => pure codes
  | changes + 1, previousIndex, codes => do
    let gap ← readVarUint
    let index := changeIndex b previousIndex gap
    let code ← readBits 4
    assertColorCode code
    failIf (index ≥ cellCount ∨ previousIndex.any (index ≤ ·)) "delta cell index is invalid"
    let codes ← stored codes index code
    readChanges cellCount changes (some index) codes

/-- Mode 2. -/
def readDeltaField (cellCount : Nat) (previous : Option (List Nat)) : Read (List Nat) := do
  let codes ← fittedPrevious previous cellCount
  let changeCount ← readVarUint
  failIf (changeCount > cellCount) "delta count exceeds the field"
  readChanges b cellCount changeCount none codes

/-- The loop over the runs of an occupancy mask. Every round reads a bit, so that after as many
    rounds as there were bits the next read finds the payload at its end. -/
def readMaskRuns (cellCount : Nat) : Nat → Bool → List Bool → Read (List Bool)
  | rounds, value, occupied =>
    if occupied.length < cellCount then
      match rounds with
      | 0 => fail "payload ended unexpectedly"
      | rounds + 1 => do
        let length ← readVarUintPlus b 1
        let room ← usizeSub b cellCount occupied.length
        failIf (length > room) "occupancy run exceeds the field"
        readMaskRuns cellCount rounds (!value) (occupied ++ List.replicate length value)
    else pure occupied

/-- Cells of a mask are bits here, bytes that are 0 or 1 in the source. -/
def readOccupancyMask (cellCount : Nat) : Read (List Bool) := do
  let runs ← readBit
  if !runs then readBitList cellCount
  else if cellCount > 0 then do
    let value ← readBit
    let reader ← get
    readMaskRuns b cellCount reader.bitsLeft value []
  else pure []

/-- `for index in 0..cell_count { if changed[index] != 0 { codes[index] = .. } }`. -/
def readMasked (palette : List Nat) (changed : List Bool) :
    List Nat → List Nat → Read (List Nat)
  | [], codes => pure codes
  | index :: rest, codes => do
    let set ← indexed changed index
    if set then do
      let code ← readPaletteCode palette "delta palette index"
      let codes ← stored codes index code
      readMasked palette changed rest codes
    else readMasked palette changed rest codes

/-- Mode 8. -/
def readMaskDeltaField (cellCount : Nat) (previous : Option (List Nat)) : Read (List Nat) := do
  let codes ← fittedPrevious previous cellCount
  let changed ← readOccupancyMask b cellCount
  let mask ← readBits 9
  let palette := paletteFromMask mask 0
  failIf (changed.any id ∧ palette = []) "delta palette is empty"
  readMasked palette changed (List.range cellCount) codes

/-- The first loop of mode 9: the runs as start and length, and how many cells they have. -/
def readRunBounds (cellCount : Nat) :
    Nat → Nat → Nat → List (Nat × Nat) → Read (List (Nat × Nat) × Nat)
  | 0, _, changeCount, runs => pure (runs, changeCount)
  | count + 1, previousEnd, changeCount, runs => do
    let gap ← readVarUint
    let start ← usizeChecked b (previousEnd + gap)
    let length ← readVarUintPlus b 1
    failIf (start < previousEnd ∨ start > cellCount) "delta run is invalid"
    let room ← usizeSub b cellCount start
    failIf (length > room) "delta run is invalid"
    let changeCount ← usize b (changeCount + length)
    let previousEnd ← usize b (start + length)
    readRunBounds cellCount count previousEnd changeCount (runs ++ [(start, length)])

/-- Colours for the cells with the given indices. -/
def readColors (palette : List Nat) : List Nat → List Nat → Read (List Nat)
  | [], codes => pure codes
  | index :: rest, codes => do
    let code ← readPaletteCode palette "delta palette index"
    let codes ← stored codes index code
    readColors palette rest codes

/-- Mode 9. -/
def readRunDeltaField (cellCount : Nat) (previous : Option (List Nat)) : Read (List Nat) := do
  let codes ← fittedPrevious previous cellCount
  let mask ← readBits 9
  let palette := paletteFromMask mask 0
  let runCount ← readVarUint
  failIf (runCount > cellCount) "delta run count is invalid"
  let (runs, changeCount) ← readRunBounds b cellCount runCount 0 0 []
  failIf (changeCount > 0 ∧ palette = []) "delta palette is empty"
  readColors palette (runs.flatMap fun (start, length) => List.range' start length) codes

/-- Mode 10. -/
def readColorDeltaField (cellCount : Nat) (previous : Option (List Nat)) : Read (List Nat) := do
  let codes ← fittedPrevious previous cellCount
  let code ← readBits 4
  assertColorCode code
  let changed ← readOccupancyMask b cellCount
  pure ((codes.zip changed).map fun (target, changed) => if changed then code else target)

/-- A combination of `count` among `total`. -/
def readCombination (total count : Nat) (reason : String) : Read (List Nat) := do
  let choices := combinationCount total count
  let rank ← readBigBits (bitsForBigChoices choices)
  failIf (rank.cmp choices ≠ .lt) reason
  orFail reason (combinationUnrank total count rank)

/-- Mode 11. -/
def readCombinationDeltaField (cellCount : Nat) (previous : Option (List Nat)) :
    Read (List Nat) := do
  let codes ← fittedPrevious previous cellCount
  let count ← readVarUint
  failIf (count > cellCount) "delta count exceeds the field"
  let positions ← readCombination cellCount count "delta rank is invalid"
  let mask ← readBits 9
  let palette := paletteFromMask mask 0
  failIf (count > 0 ∧ palette = []) "delta palette is empty"
  readColors palette positions codes

/-- `for position in positions { codes[remaining[position]] = code; }`. -/
def paint (remaining : List Nat) (code : Nat) : List Nat → List Nat → Read (List Nat)
  | [], codes => pure codes
  | position :: positions, codes => do
    let index ← indexed remaining position
    let codes ← stored codes index code
    paint remaining code positions codes

/-- `for index in remaining { codes[index] = code; }`. -/
def paintAll (code : Nat) : List Nat → List Nat → Read (List Nat)
  | [], codes => pure codes
  | index :: remaining, codes => do
    let codes ← stored codes index code
    paintAll code remaining codes

/-- The loop of `read_multiset_encoding`: the cells painted and those left over. -/
def readMultiset : List Nat → List Nat → List Nat → Read (List Nat × List Nat)
  | [], remaining, codes => pure (codes, remaining)
  | code :: palette, remaining, codes => do
    let count ← readVarUint
    failIf (count > remaining.length) "multiset count exceeds the field"
    let positions ← readCombination remaining.length count "multiset rank is invalid"
    let codes ← paint remaining code positions codes
    readMultiset palette (removeRelativePositions remaining positions) codes

/-- Mode 4. -/
def readMultisetEncoding (cellCount : Nat) : Read (List Nat) := do
  let mask ← readBits 9
  let palette := paletteFromMask mask 0
  let last ← orFail "multiset palette is empty" palette.getLast?
  let (codes, remaining) ←
    readMultiset palette.dropLast (List.range cellCount) (List.replicate cellCount 255)
  paintAll last remaining codes

/-- The loop of `read_tetromino_color_encoding`. -/
def readTetrominoes : List Nat → List Nat → List Nat → Read (List Nat × List Nat)
  | [], remaining, codes => pure (codes, remaining)
  | code :: palette, remaining, codes => do
    let positions ← readCombination remaining.length 4 "tetromino color rank is invalid"
    let codes ← paint remaining code positions codes
    readTetrominoes palette (removeRelativePositions remaining positions) codes

/-- Mode 5. -/
def readTetrominoColorEncoding (cellCount : Nat) : Read (List Nat) := do
  let occupied ← readOccupancyMask b cellCount
  let mask ← readBits 7
  let palette := paletteFromMask (mask <<< 2) 2
  let last ← orFail "tetromino color field is invalid" palette.getLast?
  failIf (occupied.count true ≠ palette.length * 4) "tetromino color field is invalid"
  let (codes, remaining) ←
    readTetrominoes palette.dropLast (occupiedCells occupied) (List.replicate cellCount 0)
  paintAll last remaining codes

/-- The colour of a cell. -/
def readOccupiedCode (palette : List Nat) (occupied : Bool) : Read Nat :=
  if occupied then readPaletteCode palette "occupied color index" else pure 0

def readOccupied (palette : List Nat) : List Bool → Read (List Nat)
  | [] => pure []
  | occupied :: rest => do
    let code ← readOccupiedCode palette occupied
    let codes ← readOccupied palette rest
    pure (code :: codes)

/-- Mode 3. -/
def readOccupancyField (cellCount : Nat) : Read (List Nat) := do
  let occupied ← readOccupancyMask b cellCount
  let mask ← readBits 8
  let palette := paletteFromMask (mask <<< 1) 1
  failIf (occupied.any id ∧ palette = []) "occupied color palette is empty"
  readOccupied palette occupied

/-- `read_cell_encoding` after the mode. -/
def readField (cellCount : Nat) (previous : Option (List Nat)) (modeWidth mode : Nat) :
    Read (List Nat) :=
  if mode = 0 then readPaletteField cellCount
  else if mode = 1 then readRunField b cellCount
  else if mode = 2 then readDeltaField b cellCount previous
  else if mode = 4 ∧ modeWidth ≥ 3 then readMultisetEncoding cellCount
  else if mode = 5 ∧ modeWidth ≥ 3 then readTetrominoColorEncoding b cellCount
  else if mode = 6 ∧ modeWidth ≥ 3 then fittedPrevious previous cellCount
  else if mode = 7 ∧ modeWidth ≥ 3 then pure (List.replicate cellCount 0)
  else if mode = 8 ∧ modeWidth ≥ 4 then readMaskDeltaField b cellCount previous
  else if mode = 9 ∧ modeWidth ≥ 4 then readRunDeltaField b cellCount previous
  else if mode = 10 ∧ modeWidth ≥ 4 then readColorDeltaField b cellCount previous
  else if mode = 11 ∧ modeWidth ≥ 4 then readCombinationDeltaField cellCount previous
  else if mode ≠ 3 then fail "field encoding mode is invalid"
  else readOccupancyField b cellCount

def readCellEncoding (cellCount : Nat) (previous : Option (List Nat)) (modeWidth : Nat) :
    Read (List Nat) := do
  let mode ← readBits modeWidth
  readField b cellCount previous modeWidth mode

end

end Clearra.Ctk3
