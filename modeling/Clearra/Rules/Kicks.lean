import Clearra.Domain.Piece

/-!
# Kick tables (`clearra-rules`)

A rotation is attempted at each offset of an ordered list and takes the first that fits. The lists
are data, five built-in profiles of them, and they are written out here as the source has them:
what a search may assume about kicks (how far down one goes, how long a list is, which kick comes
before which) is then *decided* over the table instead of being postulated.

Vertical offsets point up, as everywhere in the source.
-/

namespace Clearra.Rules

open RotationState

structure KickOffset where
  dx : Int
  dy : Int
  deriving DecidableEq

structure KickTransition where
  piece : PieceKind
  src : RotationState
  dst : RotationState
  deriving DecidableEq

namespace KickTransition

/-- `transition_kind() == OneEighty`: neither the identity nor a quarter turn. -/
def is180 (t : KickTransition) : Bool :=
  t.src ≠ t.dst && t.src.clockwise ≠ t.dst && t.src.counterClockwise ≠ t.dst

end KickTransition

structure KickTableEntry where
  transition : KickTransition
  offsets : List KickOffset

inductive KickTableProfileId where
  | srs90 | noKick | srsPlus | srsX | jstris180 | asc | ars | imported | custom
  deriving DecidableEq

structure KickTableProfile where
  id : KickTableProfileId
  entries : List KickTableEntry

namespace KickTableProfile

def sequenceFor (profile : KickTableProfile) (transition : KickTransition) :
    Option (List KickOffset) :=
  (profile.entries.find? fun entry => entry.transition = transition).map KickTableEntry.offsets

def supports180 (profile : KickTableProfile) : Bool :=
  profile.entries.any fun entry => entry.transition.is180 && !entry.offsets.isEmpty

end KickTableProfile

/-! ## Transitions -/

def eightDirectionTransitions : List (RotationState × RotationState) :=
  [(zero, right), (right, two), (two, left), (left, zero),
   (zero, left), (left, two), (two, right), (right, zero)]

def oneEightyTransitions : List (RotationState × RotationState) :=
  [(zero, two), (right, left), (two, zero), (left, right)]

def twelveDirectionTransitions : List (RotationState × RotationState) :=
  eightDirectionTransitions ++ oneEightyTransitions

/-! ## Offset lists (`srs_offsets.rs`) -/

def jlstzOffsets : RotationState → RotationState → List KickOffset
  | zero, right => [⟨0, 0⟩, ⟨-1, 0⟩, ⟨-1, 1⟩, ⟨0, -2⟩, ⟨-1, -2⟩]
  | right, zero | right, two => [⟨0, 0⟩, ⟨1, 0⟩, ⟨1, -1⟩, ⟨0, 2⟩, ⟨1, 2⟩]
  | two, right => [⟨0, 0⟩, ⟨-1, 0⟩, ⟨-1, 1⟩, ⟨0, -2⟩, ⟨-1, -2⟩]
  | two, left | zero, left => [⟨0, 0⟩, ⟨1, 0⟩, ⟨1, 1⟩, ⟨0, -2⟩, ⟨1, -2⟩]
  | left, two | left, zero => [⟨0, 0⟩, ⟨-1, 0⟩, ⟨-1, -1⟩, ⟨0, 2⟩, ⟨-1, 2⟩]
  | _, _ => []

def srsIOffsets : RotationState → RotationState → List KickOffset
  | zero, right | left, two => [⟨0, 0⟩, ⟨-2, 0⟩, ⟨1, 0⟩, ⟨-2, -1⟩, ⟨1, 2⟩]
  | right, zero | two, left => [⟨0, 0⟩, ⟨2, 0⟩, ⟨-1, 0⟩, ⟨2, 1⟩, ⟨-1, -2⟩]
  | right, two | zero, left => [⟨0, 0⟩, ⟨-1, 0⟩, ⟨2, 0⟩, ⟨-1, 2⟩, ⟨2, -1⟩]
  | two, right | left, zero => [⟨0, 0⟩, ⟨1, 0⟩, ⟨-2, 0⟩, ⟨1, -2⟩, ⟨-2, 1⟩]
  | _, _ => []

def srsPlusIOffsets : RotationState → RotationState → List KickOffset
  | zero, right => [⟨0, 0⟩, ⟨1, 0⟩, ⟨-2, 0⟩, ⟨-2, -1⟩, ⟨1, 2⟩]
  | right, zero => [⟨0, 0⟩, ⟨-1, 0⟩, ⟨2, 0⟩, ⟨-1, -2⟩, ⟨2, 1⟩]
  | right, two => [⟨0, 0⟩, ⟨-1, 0⟩, ⟨2, 0⟩, ⟨-1, 2⟩, ⟨2, -1⟩]
  | two, right => [⟨0, 0⟩, ⟨-2, 0⟩, ⟨1, 0⟩, ⟨-2, 1⟩, ⟨1, -2⟩]
  | zero, left => [⟨0, 0⟩, ⟨-1, 0⟩, ⟨2, 0⟩, ⟨2, -1⟩, ⟨-1, 2⟩]
  | left, zero => [⟨0, 0⟩, ⟨1, 0⟩, ⟨-2, 0⟩, ⟨1, -2⟩, ⟨-2, 1⟩]
  | left, two => [⟨0, 0⟩, ⟨1, 0⟩, ⟨-2, 0⟩, ⟨1, 2⟩, ⟨-2, -1⟩]
  | two, left => [⟨0, 0⟩, ⟨2, 0⟩, ⟨-1, 0⟩, ⟨2, 1⟩, ⟨-1, -2⟩]
  | _, _ => []

def srsPlusJlstz180Offsets : RotationState → RotationState → List KickOffset
  | zero, two => [⟨0, 0⟩, ⟨0, 1⟩, ⟨1, 1⟩, ⟨-1, 1⟩, ⟨1, 0⟩, ⟨-1, 0⟩]
  | two, zero => [⟨0, 0⟩, ⟨0, -1⟩, ⟨-1, -1⟩, ⟨1, -1⟩, ⟨-1, 0⟩, ⟨1, 0⟩]
  | right, left => [⟨0, 0⟩, ⟨1, 0⟩, ⟨1, 2⟩, ⟨1, 1⟩, ⟨0, 2⟩, ⟨0, 1⟩]
  | left, right => [⟨0, 0⟩, ⟨-1, 0⟩, ⟨-1, 2⟩, ⟨-1, 1⟩, ⟨0, 2⟩, ⟨0, 1⟩]
  | _, _ => []

def jstris180Offsets : RotationState → RotationState → List KickOffset
  | zero, two => [⟨0, 0⟩, ⟨0, 1⟩]
  | right, left => [⟨0, 0⟩, ⟨1, 0⟩]
  | two, zero => [⟨0, 0⟩, ⟨0, -1⟩]
  | left, right => [⟨0, 0⟩, ⟨-1, 0⟩]
  | _, _ => []

def srsPlusI180Offsets (src dst : RotationState) : List KickOffset := jstris180Offsets src dst

def srsXJlstzOffsets : RotationState → RotationState → List KickOffset
  | zero, two =>
    [⟨0, 0⟩, ⟨1, 0⟩, ⟨2, 0⟩, ⟨1, -1⟩, ⟨2, -1⟩, ⟨-1, 0⟩, ⟨-2, 0⟩, ⟨-1, -1⟩, ⟨-2, -1⟩, ⟨0, 1⟩,
     ⟨3, 0⟩, ⟨-3, 0⟩]
  | right, left =>
    [⟨0, 0⟩, ⟨0, -1⟩, ⟨0, -2⟩, ⟨-1, -1⟩, ⟨-1, -2⟩, ⟨0, 1⟩, ⟨0, 2⟩, ⟨-1, 1⟩, ⟨-1, 2⟩, ⟨1, 0⟩,
     ⟨0, -3⟩, ⟨0, 3⟩]
  | two, zero =>
    [⟨0, 0⟩, ⟨-1, 0⟩, ⟨-2, 0⟩, ⟨-1, 1⟩, ⟨-2, 1⟩, ⟨1, 0⟩, ⟨2, 0⟩, ⟨1, 1⟩, ⟨2, 1⟩, ⟨0, -1⟩,
     ⟨-3, 0⟩, ⟨3, 0⟩]
  | left, right =>
    [⟨0, 0⟩, ⟨0, -1⟩, ⟨0, -2⟩, ⟨1, -1⟩, ⟨1, -2⟩, ⟨0, 1⟩, ⟨0, 2⟩, ⟨1, 1⟩, ⟨1, 2⟩, ⟨-1, 0⟩,
     ⟨0, -3⟩, ⟨0, 3⟩]
  | src, dst => jlstzOffsets src dst

def srsXIOffsets : RotationState → RotationState → List KickOffset
  | zero, two => [⟨0, 0⟩, ⟨-1, 0⟩, ⟨-2, 0⟩, ⟨1, 0⟩, ⟨2, 0⟩, ⟨0, -1⟩]
  | right, left => [⟨0, 0⟩, ⟨0, -1⟩, ⟨0, -2⟩, ⟨0, 1⟩, ⟨0, 2⟩, ⟨-1, 0⟩]
  | two, zero => [⟨0, 0⟩, ⟨1, 0⟩, ⟨2, 0⟩, ⟨-1, 0⟩, ⟨-2, 0⟩, ⟨0, 1⟩]
  | left, right => [⟨0, 0⟩, ⟨0, -1⟩, ⟨0, -2⟩, ⟨0, 1⟩, ⟨0, 2⟩, ⟨1, 0⟩]
  | src, dst => srsIOffsets src dst

def srsXOOffsets (src dst : RotationState) : List KickOffset :=
  if (src, dst) ∈ twelveDirectionTransitions then [⟨0, 0⟩] else []

/-! ## Profiles -/

/-- `KickOffsetSequence::no_kick()`. -/
def noKickSequence : List KickOffset := [⟨0, 0⟩]

/-- `SrsKicks::sequence`. -/
def srsSequence (t : KickTransition) : List KickOffset :=
  match t.piece with
  | .O => noKickSequence
  | .I => srsIOffsets t.src t.dst
  | _ => jlstzOffsets t.src t.dst

/-- One entry per listed transition of one piece. -/
def entriesOf (piece : PieceKind) (transitions : List (RotationState × RotationState))
    (sequence : RotationState → RotationState → List KickOffset) : List KickTableEntry :=
  transitions.map fun t => ⟨⟨piece, t.1, t.2⟩, sequence t.1 t.2⟩

def noKickProfileEntries : List KickTableEntry :=
  PieceKind.standardTetrominoes.flatMap fun piece =>
    entriesOf piece eightDirectionTransitions fun _ _ => noKickSequence

def srsProfileEntries : List KickTableEntry :=
  PieceKind.standardTetrominoes.flatMap fun piece =>
    entriesOf piece eightDirectionTransitions fun src dst => srsSequence ⟨piece, src, dst⟩

def srsPlusProfileEntries : List KickTableEntry :=
  (PieceKind.standardTetrominoes.flatMap fun piece =>
    entriesOf piece eightDirectionTransitions fun src dst =>
      match piece with
      | .O => noKickSequence
      | .I => srsPlusIOffsets src dst
      | _ => jlstzOffsets src dst) ++
  ((PieceKind.standardTetrominoes.filter (· ≠ .O)).flatMap fun piece =>
    entriesOf piece oneEightyTransitions fun src dst =>
      match piece with
      | .I => srsPlusI180Offsets src dst
      | _ => srsPlusJlstz180Offsets src dst)

def srsXProfileEntries : List KickTableEntry :=
  PieceKind.standardTetrominoes.flatMap fun piece =>
    entriesOf piece twelveDirectionTransitions fun src dst =>
      match piece with
      | .I => srsXIOffsets src dst
      | .O => srsXOOffsets src dst
      | _ => srsXJlstzOffsets src dst

def jstris180ProfileEntries : List KickTableEntry :=
  (PieceKind.standardTetrominoes.filter (· ≠ .O)).flatMap fun piece =>
    entriesOf piece eightDirectionTransitions (fun src dst => srsSequence ⟨piece, src, dst⟩) ++
      entriesOf piece oneEightyTransitions jstris180Offsets

/-- `builtin_kick_profile`: the profiles the executor can search with. -/
def builtinKickProfile : KickTableProfileId → Option KickTableProfile
  | .srs90 => some ⟨.srs90, srsProfileEntries⟩
  | .srsPlus => some ⟨.srsPlus, srsPlusProfileEntries⟩
  | .srsX => some ⟨.srsX, srsXProfileEntries⟩
  | .jstris180 => some ⟨.jstris180, jstris180ProfileEntries⟩
  | .noKick => some ⟨.noKick, noKickProfileEntries⟩
  | .asc | .ars | .imported | .custom => none

/-- The profiles themselves, for statements decided over all of them. -/
def builtinKickProfiles : List KickTableProfile :=
  [.srs90, .srsPlus, .srsX, .jstris180, .noKick].filterMap builtinKickProfile

theorem mem_builtinKickProfiles {id : KickTableProfileId} {profile : KickTableProfile}
    (h : builtinKickProfile id = some profile) : profile ∈ builtinKickProfiles := by
  rw [builtinKickProfiles, List.mem_filterMap]
  refine ⟨id, ?_, h⟩
  cases id with
  | asc | ars | imported | custom => exact absurd h (by simp [builtinKickProfile])
  | srs90 | srsPlus | srsX | jstris180 | noKick => simp

end Clearra.Rules
