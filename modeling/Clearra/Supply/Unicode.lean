import Mathlib

/-!
# The tables of `char` (standard library)

`char::is_whitespace` and `char::to_uppercase`, which the queue-pattern parser calls on every character
of a source. Both are tables of Unicode (version 17): `White_Space`, the simple upper-case mappings and the
unconditional expansions of `SpecialCasing`. The mappings are kept as runs of code points whose images
run along with them.
-/

namespace Clearra.Supply

/-- `White_Space`, as runs of code points. -/
def whitespaceRuns : List (Nat × Nat) :=
  [(0x9, 0xD), (0x20, 0x20), (0x85, 0x85), (0xA0, 0xA0), (0x1680, 0x1680), (0x2000, 0x200A),
    (0x2028, 0x2029), (0x202F, 0x202F), (0x205F, 0x205F), (0x3000, 0x3000)]

def isWhitespace (c : Char) : Bool :=
  whitespaceRuns.any fun run => run.1 ≤ c.toNat && c.toNat ≤ run.2

/-- Where large and small letters alternate: the first of the small ones, and how many. -/
def alternatingLetters : List (Nat × Nat) :=
  [(0x101, 24), (0x133, 3), (0x13A, 8), (0x14B, 23), (0x17A, 3), (0x183, 2), (0x188, 1), (0x18C, 1),
    (0x192, 1), (0x199, 1), (0x1A1, 3), (0x1A8, 1), (0x1AD, 1), (0x1B0, 1), (0x1B4, 2), (0x1B9, 1),
    (0x1BD, 1), (0x1C5, 1), (0x1C8, 1), (0x1CB, 1), (0x1CE, 8), (0x1DF, 9), (0x1F2, 1), (0x1F5, 1),
    (0x1F9, 20), (0x223, 9), (0x23C, 1), (0x242, 1), (0x247, 5), (0x371, 2), (0x377, 1),
    (0x3D9, 12), (0x3F8, 1), (0x3FB, 1), (0x461, 17), (0x48B, 27), (0x4C2, 7), (0x4D1, 48),
    (0x1C8A, 1), (0x1E01, 75), (0x1EA1, 48), (0x2184, 1), (0x2C61, 1), (0x2C68, 3), (0x2C73, 1),
    (0x2C76, 1), (0x2C81, 50), (0x2CEC, 2), (0x2CF3, 1), (0xA641, 23), (0xA681, 14), (0xA723, 7),
    (0xA733, 31), (0xA77A, 2), (0xA77F, 5), (0xA78C, 1), (0xA791, 2), (0xA797, 10), (0xA7B5, 8),
    (0xA7C8, 2), (0xA7CD, 8), (0xA7F6, 1)]

/-- Letters in a row, how many, and the first of their upper case. -/
def shiftedLetters : List (Nat × Nat × Nat) :=
  [(0xE0, 23, 0xC0), (0xF8, 7, 0xD8), (0x23F, 2, 0x2C7E), (0x256, 2, 0x189), (0x28A, 2, 0x1B1),
    (0x37B, 3, 0x3FD), (0x3AD, 3, 0x388), (0x3B1, 17, 0x391), (0x3C3, 9, 0x3A3), (0x3CD, 2, 0x38E),
    (0x430, 32, 0x410), (0x450, 16, 0x400), (0x561, 38, 0x531), (0x10D0, 43, 0x1C90),
    (0x10FD, 3, 0x1CBD), (0x13F8, 6, 0x13F0), (0x1C83, 2, 0x421), (0x1F00, 8, 0x1F08),
    (0x1F10, 6, 0x1F18), (0x1F20, 8, 0x1F28), (0x1F30, 8, 0x1F38), (0x1F40, 6, 0x1F48),
    (0x1F60, 8, 0x1F68), (0x1F70, 2, 0x1FBA), (0x1F72, 4, 0x1FC8), (0x1F76, 2, 0x1FDA),
    (0x1F78, 2, 0x1FF8), (0x1F7A, 2, 0x1FEA), (0x1F7C, 2, 0x1FFA), (0x1FB0, 2, 0x1FB8),
    (0x1FD0, 2, 0x1FD8), (0x1FE0, 2, 0x1FE8), (0x2170, 16, 0x2160), (0x24D0, 26, 0x24B6),
    (0x2C30, 48, 0x2C00), (0x2D00, 38, 0x10A0), (0xAB70, 80, 0x13A0), (0xFF41, 26, 0xFF21),
    (0x10428, 40, 0x10400), (0x104D8, 36, 0x104B0), (0x10597, 11, 0x10570), (0x105A3, 15, 0x1057C),
    (0x105B3, 7, 0x1058C), (0x105BB, 2, 0x10594), (0x10CC0, 51, 0x10C80), (0x10D70, 22, 0x10D50),
    (0x118C0, 32, 0x118A0), (0x16E60, 32, 0x16E40), (0x16EBB, 25, 0x16EA0), (0x1E922, 34, 0x1E900)]

/-- Letters alone, and their upper case. -/
def singleLetters : List (Nat × Nat) :=
  [(0xB5, 0x39C), (0xFF, 0x178), (0x131, 0x49), (0x17F, 0x53), (0x180, 0x243), (0x195, 0x1F6),
    (0x19A, 0x23D), (0x19B, 0xA7DC), (0x19E, 0x220), (0x1BF, 0x1F7), (0x1C6, 0x1C4), (0x1C9, 0x1C7),
    (0x1CC, 0x1CA), (0x1DD, 0x18E), (0x1F3, 0x1F1), (0x250, 0x2C6F), (0x251, 0x2C6D),
    (0x252, 0x2C70), (0x253, 0x181), (0x254, 0x186), (0x259, 0x18F), (0x25B, 0x190),
    (0x25C, 0xA7AB), (0x260, 0x193), (0x261, 0xA7AC), (0x263, 0x194), (0x264, 0xA7CB),
    (0x265, 0xA78D), (0x266, 0xA7AA), (0x268, 0x197), (0x269, 0x196), (0x26A, 0xA7AE),
    (0x26B, 0x2C62), (0x26C, 0xA7AD), (0x26F, 0x19C), (0x271, 0x2C6E), (0x272, 0x19D),
    (0x275, 0x19F), (0x27D, 0x2C64), (0x280, 0x1A6), (0x282, 0xA7C5), (0x283, 0x1A9),
    (0x287, 0xA7B1), (0x288, 0x1AE), (0x289, 0x244), (0x28C, 0x245), (0x292, 0x1B7),
    (0x29D, 0xA7B2), (0x29E, 0xA7B0), (0x345, 0x399), (0x3AC, 0x386), (0x3C2, 0x3A3),
    (0x3CC, 0x38C), (0x3D0, 0x392), (0x3D1, 0x398), (0x3D5, 0x3A6), (0x3D6, 0x3A0), (0x3D7, 0x3CF),
    (0x3F0, 0x39A), (0x3F1, 0x3A1), (0x3F2, 0x3F9), (0x3F3, 0x37F), (0x3F5, 0x395), (0x4CF, 0x4C0),
    (0x1C80, 0x412), (0x1C81, 0x414), (0x1C82, 0x41E), (0x1C85, 0x422), (0x1C86, 0x42A),
    (0x1C87, 0x462), (0x1C88, 0xA64A), (0x1D79, 0xA77D), (0x1D7D, 0x2C63), (0x1D8E, 0xA7C6),
    (0x1E9B, 0x1E60), (0x1F51, 0x1F59), (0x1F53, 0x1F5B), (0x1F55, 0x1F5D), (0x1F57, 0x1F5F),
    (0x1FBE, 0x399), (0x1FE5, 0x1FEC), (0x214E, 0x2132), (0x2C65, 0x23A), (0x2C66, 0x23E),
    (0x2D27, 0x10C7), (0x2D2D, 0x10CD), (0xA794, 0xA7C4), (0xAB53, 0xA7B3)]

/-- Eight in a row whose upper case has one that runs along, and an iota behind it. -/
def iotaLetters : List (Nat × Nat) :=
  [(0x1F80, 0x1F08), (0x1F88, 0x1F08), (0x1F90, 0x1F28), (0x1F98, 0x1F28), (0x1FA0, 0x1F68),
    (0x1FA8, 0x1F68)]

/-- Characters whose upper case has others behind the first. -/
def expandedLetters : List (Nat × Nat × List Nat) :=
  [(0xDF, 0x53, [0x53]), (0x149, 0x2BC, [0x4E]), (0x1F0, 0x4A, [0x30C]),
    (0x390, 0x399, [0x308, 0x301]), (0x3B0, 0x3A5, [0x308, 0x301]), (0x587, 0x535, [0x552]),
    (0x1E96, 0x48, [0x331]), (0x1E97, 0x54, [0x308]), (0x1E98, 0x57, [0x30A]),
    (0x1E99, 0x59, [0x30A]), (0x1E9A, 0x41, [0x2BE]), (0x1F50, 0x3A5, [0x313]),
    (0x1F52, 0x3A5, [0x313, 0x300]), (0x1F54, 0x3A5, [0x313, 0x301]),
    (0x1F56, 0x3A5, [0x313, 0x342]), (0x1FB2, 0x1FBA, [0x399]), (0x1FB3, 0x391, [0x399]),
    (0x1FB4, 0x386, [0x399]), (0x1FB6, 0x391, [0x342]), (0x1FB7, 0x391, [0x342, 0x399]),
    (0x1FBC, 0x391, [0x399]), (0x1FC2, 0x1FCA, [0x399]), (0x1FC3, 0x397, [0x399]),
    (0x1FC4, 0x389, [0x399]), (0x1FC6, 0x397, [0x342]), (0x1FC7, 0x397, [0x342, 0x399]),
    (0x1FCC, 0x397, [0x399]), (0x1FD2, 0x399, [0x308, 0x300]), (0x1FD3, 0x399, [0x308, 0x301]),
    (0x1FD6, 0x399, [0x342]), (0x1FD7, 0x399, [0x308, 0x342]), (0x1FE2, 0x3A5, [0x308, 0x300]),
    (0x1FE3, 0x3A5, [0x308, 0x301]), (0x1FE4, 0x3A1, [0x313]), (0x1FE6, 0x3A5, [0x342]),
    (0x1FE7, 0x3A5, [0x308, 0x342]), (0x1FF2, 0x1FFA, [0x399]), (0x1FF3, 0x3A9, [0x399]),
    (0x1FF4, 0x38F, [0x399]), (0x1FF6, 0x3A9, [0x342]), (0x1FF7, 0x3A9, [0x342, 0x399]),
    (0x1FFC, 0x3A9, [0x399]), (0xFB00, 0x46, [0x46]), (0xFB01, 0x46, [0x49]),
    (0xFB02, 0x46, [0x4C]), (0xFB03, 0x46, [0x46, 0x49]), (0xFB04, 0x46, [0x46, 0x4C]),
    (0xFB05, 0x53, [0x54]), (0xFB06, 0x53, [0x54]), (0xFB13, 0x544, [0x546]),
    (0xFB14, 0x544, [0x535]), (0xFB15, 0x544, [0x53B]), (0xFB16, 0x54E, [0x546]),
    (0xFB17, 0x544, [0x53D])]

/-- Code points from `first` to `last`, every `step`th, whose upper case runs from `image` on and is
    followed by `rest`. -/
structure UpperRun where
  first : Nat
  last : Nat
  step : Nat
  image : Nat
  rest : List Nat

def UpperRun.contains (run : UpperRun) (code : Nat) : Bool :=
  run.first ≤ code && code ≤ run.last && (code - run.first) % run.step == 0

/-- The code points beyond ASCII that have an upper case of their own. -/
def upperRuns : List UpperRun :=
  alternatingLetters.map (fun (first, count) => ⟨first, first + 2 * (count - 1), 2, first - 1, []⟩) ++
    shiftedLetters.map (fun (first, count, image) => ⟨first, first + (count - 1), 1, image, []⟩) ++
    singleLetters.map (fun (first, image) => ⟨first, first, 1, image, []⟩) ++
    iotaLetters.map (fun (first, image) => ⟨first, first + 7, 1, image, [0x399]⟩) ++
    expandedLetters.map fun (first, image, rest) => ⟨first, first, 1, image, rest⟩

def toUppercase (c : Char) : List Char :=
  if c.toNat < 128 then [c.toUpper]
  else
    match upperRuns.find? (·.contains c.toNat) with
    | some run => Char.ofNat (run.image + (c.toNat - run.first)) :: run.rest.map Char.ofNat
    | none => [c]

end Clearra.Supply
