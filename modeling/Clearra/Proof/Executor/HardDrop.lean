import Clearra.Proof.Executor.LockWorkspace

/-!
# How far the hard-drop test sees

`lockHarddropReachable` asks whether the cells over the lock are free, and looks at eight rows of them.
Where those rows reach the top of the board a lock that passes can fall straight down. Where they stop
under a whole row of the board, that row can be filled: the test still passes, and nothing gets through —
except the `I` of SRS-X, whose half turn goes two rows down, so for it the roof has to be two rows thick.

Between the two lie the shapes whose columns end at different heights, when only the higher ones reach
the top. There the mask does not decide: some turn under the roof, down a shaft they have to themselves.
-/

namespace Clearra.Proof.Executor

open Clearra.Executor ReachabilityWorkspace BitVec Nat Bool Function Option List
open Clearra.Rules

/-! ## A roof -/

/-- The rows a roof needs over a piece: one, or two where a rotation goes over one. -/
def roofRows (profileId : KickTableProfileId) (piece : PieceKind) : Nat :=
  if profileId = .srsX ∧ piece = .I then 2 else 1

theorem roofRows_pos (profileId : KickTableProfileId) (piece : PieceKind) :
    0 < roofRows profileId piece := by
  unfold roofRows
  split <;> decide

/-- Wherever a rotation leads, some cell is at most a roof's thickness under the pose it began in. -/
theorem kick_le_roofRows {profileId : KickTableProfileId} {profile : KickTableProfile}
    (hprofile : builtinKickProfile profileId = some profile) :
    ∀ entry ∈ profile.entries, ∀ kick ∈ entry.offsets,
      ∃ c ∈ shapeCells entry.transition.piece entry.transition.dst,
        -(roofRows profileId entry.transition.piece : Int) ≤
          (normalizedKickDelta entry.transition.piece entry.transition.src entry.transition.dst
            kick).2 + c.y := by
  cases profileId with
  | asc | ars | imported | custom => simp [builtinKickProfile] at hprofile
  | srs90 | srsPlus | srsX | jstris180 | noKick =>
    obtain rfl := Option.some.inj hprofile
    decide +kernel

section Roof

variable {g : Arena} {rows : Nat} {ceiling : Option Nat} {s t : State}

/-- The top rows of the board are full. -/
def UnderRoof (g : Arena) (rows : Nat) : Prop :=
  ∀ row < g.height, g.height ≤ row + rows → ∀ column < g.width,
    g.board.getLsbD (row * g.width + column) = true

/-- No free pose has a part over the roof, or in it, and its anchor not. -/
theorem UnderRoof.le_of_free (hroof : UnderRoof g rows) (hrows : 0 < rows)
    (hfree : g.Free ceiling t) {c : ShapeCell} (hc : c ∈ shapeCells g.piece t.rotation)
    (hover : (g.height : Int) ≤ t.y + c.y + rows) : g.height ≤ t.y := by
  by_contra! hlow
  have hy := hfree.2.1.y_nonneg
  -- the lowest row of the roof that the piece is in
  have hheight := shapeCell_y_lt hc
  obtain ⟨d, hd, hdrow⟩ := exists_shapeCell_y_iff.mpr
    (show (max 0 ((g.height : Int) - rows - t.y)).toNat < shapeHeight g.piece t.rotation by omega)
  obtain ⟨hleft, hright, -⟩ := hfree.2.1 d hd
  have hempty := hfree.2.2 d hd (by omega)
  rw [hroof (t.y + d.y).toNat (by omega) (by omega) (t.x + d.x).toNat (by omega)] at hempty
  exact absurd hempty (by decide)

variable {profileId : KickTableProfileId} (hprofile : builtinKickProfile profileId = some g.profile)
  (hroof : UnderRoof g (roofRows profileId g.piece))
include hprofile hroof

/-- One move does not get through. -/
theorem UnderRoof.move (hs : (g.height : Int) ≤ s.y) (hmove : g.Move ceiling s t) :
    g.height ≤ t.y := by
  have hrows := roofRows_pos profileId g.piece
  cases hmove with
  | translate slot hfree =>
    obtain ⟨c, hc, hy⟩ := exists_shapeCell_y_zero g.piece (translationCandidates s slot).rotation
    refine hroof.le_of_free hrows hfree hc ?_
    have hdown : s.y - 1 ≤ (translationCandidates s slot).y := by
      fin_cases slot <;> simp [translationCandidates]
    omega
  | rotate dst hdst t hfind =>
    have hfree : g.Free ceiling t := by simpa using List.find?_some hfind
    obtain ⟨kick, hkick, rfl⟩ := List.mem_map.mp (List.mem_of_find?_eq_some hfind)
    obtain ⟨entry, hentry, heq, hoffset⟩ : ∃ entry ∈ g.profile.entries,
        entry.transition = ⟨g.piece, s.rotation, dst⟩ ∧ kick ∈ entry.offsets := by
      rw [KickTableProfile.sequenceFor] at hkick
      cases hentry : g.profile.entries.find? (fun entry => entry.transition =
          ⟨g.piece, s.rotation, dst⟩) with
      | none => simp [hentry] at hkick
      | some entry =>
        exact ⟨entry, List.mem_of_find?_eq_some hentry, by simpa using List.find?_some hentry,
          by simpa [hentry] using hkick⟩
    obtain ⟨c, hc, hreach⟩ := kick_le_roofRows hprofile entry hentry kick hoffset
    rw [heq] at hc hreach
    refine hroof.le_of_free hrows hfree hc ?_
    dsimp only at hreach ⊢
    omega

/-- What starts over the roof stays there. -/
theorem UnderRoof.reachable (h : g.Reachable ceiling s) : g.height ≤ s.y := by
  obtain ⟨seed, hsky, hrun⟩ := h
  induction hrun with
  | refl => exact hsky.2.2
  | tail _ hmove ih => exact hroof.move hprofile ih hmove

end Roof

/-! ## The fullest board the test passes -/

section Fullest

variable {width height : Nat} {lockMask : Board} {piece : PieceKind} {rotation : RotationState}
  {x lockY : Int}

/-- The top rows of the board are off the path. -/
def PathStopsUnder (width height rows : Nat) (lockMask : Board) : Prop :=
  ∀ row < height, height ≤ row + rows → ∀ column < width,
    (harddropPathMask lockMask width).getLsbD (row * width + column) = false

/-- Everything filled but the path. -/
def fullestBoard (width height : Nat) (lockMask : Board) : Board :=
  BitVec.ofNat 64 (2 ^ (width * height) - 1) &&& ~~~harddropPathMask lockMask width

theorem getLsbD_fullestBoard (hcells : width * height ≤ 64) {i : Nat} :
    (fullestBoard width height lockMask).getLsbD i = true ↔
      i < width * height ∧ (harddropPathMask lockMask width).getLsbD i = false := by
  rw [fullestBoard, getLsbD_and, getLsbD_ofNat, testBit_two_pow_sub_one, getLsbD_not]
  simp only [Bool.and_eq_true, decide_eq_true_eq, Bool.not_eq_true']
  constructor
  · exact fun h => ⟨h.1.2, h.2.2⟩
  · exact fun h => ⟨⟨by omega, h.1⟩, by omega, h.2⟩

/-- Below sixteen columns the word does not wrap, and a cell of the path is less than eight rows over a
    cell of the lock. -/
theorem exists_of_getLsbD_harddropPathMask (hwidth : width < 16) {i : Nat}
    (h : (harddropPathMask lockMask width).getLsbD i = true) :
    ∃ k < 8, width * k ≤ i ∧ lockMask.getLsbD (i - width * k) = true := by
  have hstep : ∀ {path : Board} {d i : Nat}, d < 64 →
      (path ||| wrappingShl path d).getLsbD i = true →
        ∃ b < 2, d * b ≤ i ∧ path.getLsbD (i - d * b) = true := by
    intro path d i hd hbit
    rw [getLsbD_or, wrappingShl, mod_eq_of_lt hd, getLsbD_shiftLeft, Bool.or_eq_true] at hbit
    rcases hbit with hbit | hbit
    · exact ⟨0, by omega, by omega, by simpa using hbit⟩
    · simp only [Bool.and_eq_true, Bool.not_eq_true', decide_eq_true_eq, decide_eq_false_iff_not]
        at hbit
      exact ⟨1, by omega, by omega, by simpa using hbit.2⟩
  rw [harddropPathMask, if_pos (by omega)] at h
  obtain ⟨a, ha, hale, h⟩ := hstep (by omega) h
  obtain ⟨b, hb, hble, h⟩ := hstep (by omega) h
  obtain ⟨c, hc, hcle, h⟩ := hstep (by omega) h
  have hsum : width * (a * 4 + b * 2 + c) = width * 4 * a + width * 2 * b + width * c := by ring
  refine ⟨a * 4 + b * 2 + c, by omega, by omega, ?_⟩
  rw [hsum, ← Nat.sub_sub, ← Nat.sub_sub]
  exact h

/-- Every column of the shape ends in its highest row. -/
def Level (piece : PieceKind) (rotation : RotationState) : Prop :=
  ∀ c ∈ shapeCells piece rotation, ∃ top ∈ shapeCells piece rotation,
    top.x = c.x ∧ ∀ d ∈ shapeCells piece rotation, d.y ≤ top.y

instance (piece : PieceKind) (rotation : RotationState) : Decidable (Level piece rotation) :=
  inferInstanceAs (Decidable (∀ c ∈ shapeCells piece rotation, _))

variable (h : Placed width height piece rotation x lockY)
include h

/-- The cells of the lock and seven rows over each are on the path. -/
theorem Placed.on_path {c : ShapeCell} (hc : c ∈ shapeCells piece rotation) (row : Nat)
    (hle : lockY + c.y ≤ row) (hlt : row < lockY + c.y + 8) (hrow : row < height) :
    (harddropPathMask (physicalCells width piece rotation x lockY) width).getLsbD
      (row * width + (x + c.x).toNat) = true := by
  obtain ⟨hx, hy⟩ := h.inside c hc
  have hindex : row * width + (x + c.x).toNat = (lockY + c.y).toNat * width + (x + c.x).toNat +
      width * (row - (lockY + c.y).toNat) := by
    obtain ⟨k, rfl⟩ := Nat.exists_eq_add_of_le (show (lockY + c.y).toNat ≤ row by omega)
    rw [Nat.add_sub_cancel_left, Nat.add_mul, Nat.mul_comm k]
    omega
  have hword := cell_lt h.cells_le hrow (show (x + c.x).toNat < width by omega)
  rw [hindex] at hword ⊢
  exact getLsbD_harddropPathMask (h.getLsbD_physicalCells hc) (by omega) hword

/-- Over eight rows high a board has at most seven columns. -/
theorem Placed.width_lt (hheight : 8 < height) : width < 16 := by
  by_contra! hwide
  have := Nat.mul_le_mul hwide hheight
  have := h.cells_le
  omega

/-- A cell of the path is over a cell of the lock, in the same column. -/
theorem Placed.of_on_path (hwidth : width < 16) {row column : Nat} (hcolumn : column < width)
    (hbit : (harddropPathMask (physicalCells width piece rotation x lockY) width).getLsbD
      (row * width + column) = true) :
    ∃ c ∈ shapeCells piece rotation, x + c.x = column ∧ lockY + c.y ≤ row ∧
      row < lockY + c.y + 8 := by
  obtain ⟨k, hk, hle, hlock⟩ := exists_of_getLsbD_harddropPathMask hwidth hbit
  rw [physicalCells, getLsbD_lockCells] at hlock
  obtain ⟨-, c, hc, hindex⟩ := hlock
  obtain ⟨hx, hy⟩ := h.inside c hc
  dsimp only [id_eq] at hindex
  -- equal indices are equal rows and equal columns
  have hsum : ((lockY + c.y).toNat + k) * width + (x + c.x).toNat = row * width + column := by
    rw [Nat.add_mul, Nat.mul_comm k]
    omega
  have hrow : (lockY + c.y).toNat + k = row := by
    have := congrArg (· / width) hsum
    simpa [Nat.mul_add_div, Nat.mul_comm _ width, Nat.div_eq_of_lt hcolumn,
      Nat.div_eq_of_lt (show (x + c.x).toNat < width by omega),
      show 0 < width by omega] using this
  rw [hrow] at hsum
  exact ⟨c, hc, by omega, by omega, by omega⟩

/-- A row off the path is over the eighth. -/
theorem Placed.height_of_stops {rows : Nat} (hrows : 0 < rows)
    (hstops : PathStopsUnder width height rows (physicalCells width piece rotation x lockY)) :
    8 < height := by
  obtain ⟨c, hc, -⟩ := exists_shapeCell_y_zero piece rotation
  obtain ⟨hx, hy⟩ := h.inside c hc
  by_contra! hlow
  have hon := h.on_path hc (height - 1) (by omega) (by omega) (by omega)
  rw [hstops (height - 1) (by omega) (by omega) _ (by omega)] at hon
  exact absurd hon (by decide)

/-- The fullest board passes: it leaves the path open, and the row under the lock is filled. -/
theorem Placed.harddrop_fullestBoard (hheight : 8 < height) :
    lockHarddropReachable width
      (fullestBoard width height (physicalCells width piece rotation x lockY))
      ⟨physicalCells width piece rotation x lockY, rotation, x, lockY⟩ = true := by
  have hwidth := h.width_lt hheight
  have hnonneg := h.lockY_nonneg
  rw [lockHarddropReachable, and_eq_true, or_eq_true, decide_eq_true_eq, decide_eq_true_eq,
    decide_eq_true_eq]
  refine ⟨or_iff_not_imp_left.mpr fun hpos hzero => ?_, ?_⟩
  · dsimp only at hpos
    obtain ⟨c, hc, hcy⟩ := exists_shapeCell_y_zero piece rotation
    obtain ⟨hx, hy⟩ := h.inside c hc
    have hbelow : (lockY + c.y).toNat * width + (x + c.x).toNat =
        width + ((lockY - 1).toNat * width + (x + c.x).toNat) := by
      rw [show (lockY + c.y).toNat = (lockY - 1).toNat + 1 by omega, Nat.succ_mul]
      omega
    refine Lib.and_eq_zero_iff.mp hzero ((lockY - 1).toNat * width + (x + c.x).toNat) ?_ ?_
    · refine (getLsbD_fullestBoard h.cells_le).mpr ⟨cell_lt_cells (by omega) (by omega), ?_⟩
      -- the path has nothing under the lock
      rw [eq_false_iff]
      intro hon
      obtain ⟨d, -, -, hle, -⟩ := h.of_on_path hwidth (by omega) hon
      omega
    · rw [mod_eq_of_lt (by omega), getLsbD_ushiftRight, ← hbelow]
      exact h.getLsbD_physicalCells hc
  · exact Lib.and_eq_zero_iff.mpr fun j hboard hpath => by
      simp [((getLsbD_fullestBoard h.cells_le).mp hboard).2] at hpath

/-- Where all columns end together, the path covers everything over the lock or stops under a row. -/
theorem Placed.covers_or_stops (hlevel : Level piece rotation) :
    PathCovers width height (physicalCells width piece rotation x lockY) ∨
      PathStopsUnder width height 1 (physicalCells width piece rotation x lockY) := by
  refine or_iff_not_imp_right.mpr fun hreaches => ?_
  rcases le_or_gt height 8 with hlow | hheight
  · exact pathCovers_of_height_le h.cells_le hlow _
  have hwidth := h.width_lt hheight
  -- some column reaches the top, so the highest row of the lock is at most eight under it
  obtain ⟨d, hd, htop⟩ : ∃ d ∈ shapeCells piece rotation, (height : Int) ≤ lockY + d.y + 8 := by
    by_contra! hshort
    refine hreaches fun row hrow hlast column hcolumn => ?_
    rw [eq_false_iff]
    intro hon
    obtain ⟨d, hd, -, -, hlt⟩ := h.of_on_path hwidth hcolumn hon
    have := hshort d hd
    omega
  intro column hcolumn row hrow below hbelow hbit
  rw [physicalCells, getLsbD_lockCells] at hbit
  obtain ⟨hword, c, hc, hindex⟩ := hbit
  have hself := h.on_path hc (lockY + c.y).toNat
  obtain ⟨hx, hy⟩ := h.inside c hc
  obtain ⟨b, hb, hcolumn', hble, -⟩ := h.of_on_path hwidth hcolumn (by
    rw [hindex]
    exact hself (by omega) (by omega) (by omega))
  obtain ⟨top, htopmem, htopx, hhigh⟩ := hlevel b hb
  have := hhigh d hd
  have := (shapeCell_y_lt htopmem).trans_le (shapeHeight_bounds piece rotation).2
  have hnonneg := h.lockY_nonneg
  have hcell : (x + top.x).toNat = column := by omega
  rcases le_or_gt (lockY + top.y) row with hover | hunder
  · have hon := h.on_path htopmem row hover (by omega) hrow
    rwa [hcell] at hon
  · have hon := h.on_path hb row (by omega) (by omega) hrow
    rwa [show (x + b.x).toNat = column by omega] at hon

end Fullest

/-! ## The shortcut by itself -/

section Shortcut

variable {catalog : GeometryCatalog} {piece : PieceKind} {realization : InstantiatedRealization}
  {profileId : KickTableProfileId}

/-- The answer of the search from a scratch, for a lock. -/
def SearchAnswers (catalog : GeometryCatalog) (piece : PieceKind) (profileId : KickTableProfileId)
    (board : Board) (scratch : ReachabilityScratch) (realization : InstantiatedRealization)
    (answer : Bool) : Prop :=
  ∃ template forward after,
    ReachabilityTemplate.compile catalog.width catalog.height piece profileId = some template ∧
    searchReachableLocks template board scratch none = some (forward, after) ∧
    forward.locks.contains catalog.width realization.rotation realization.x realization.lockY = answer

theorem Realizes.placed (h : Realizes catalog piece realization) (hcompiled : CompiledCatalog catalog) :
    Placed catalog.width catalog.height piece realization.rotation realization.x realization.lockY :=
  ⟨hcompiled.bounds.2, (h.inside hcompiled).1⟩

/-- The search answers for a lock of the catalog, and its answer is the truth about the lock. -/
theorem Realizes.searchAnswers (h : Realizes catalog piece realization)
    (hcompiled : CompiledCatalog catalog) {profile : KickTableProfile}
    (hprofile : builtinKickProfile profileId = some profile) (board : Board)
    (scratch : ReachabilityScratch) :
    ∃ answer, SearchAnswers catalog piece profileId board scratch realization answer ∧
      (answer = true ↔ LockTruth catalog.width catalog.height profile board piece
        realization.rotation realization.x realization.lockY) := by
  obtain ⟨hheight, hcells⟩ := hcompiled.bounds
  let g : Arena := ⟨catalog.width, catalog.height, piece, profile.supports180, profile, board⟩
  have hsmall : Small g := .of_cells hprofile hheight hcells
  obtain ⟨forward, after, hforward, -, hlocks⟩ := searchReachableLocks_spec hsmall hcells scratch
  refine ⟨_, ⟨templateOf g, forward, after, ?_, hforward, rfl⟩, hlocks _ _ _ (h.lockY_lt hcompiled)⟩
  rw [ReachabilityTemplate.compile, hprofile]
  rfl

/-- Whatever the dimensions. Where the path covers everything over the lock, the search finds what the
    test passes, on every board. Where it stops under the rows of a roof, the test passes the fullest
    board and the search finds nothing there. For shapes whose columns end together there is no third
    case, the `I` of SRS-X under a single row apart. -/
theorem harddrop_sound_of_covers (hcompiled : CompiledCatalog catalog)
    (hrealizes : Realizes catalog piece realization) (hconnected : Connected profileId) :
    (PathCovers catalog.width catalog.height realization.lockMask →
      ∀ board scratch, lockHarddropReachable catalog.width board realization = true →
        SearchAnswers catalog piece profileId board scratch realization true) ∧
    (PathStopsUnder catalog.width catalog.height (roofRows profileId piece) realization.lockMask →
      lockHarddropReachable catalog.width
          (fullestBoard catalog.width catalog.height realization.lockMask) realization = true ∧
        ∀ scratch, SearchAnswers catalog piece profileId
          (fullestBoard catalog.width catalog.height realization.lockMask) scratch realization
          false) ∧ (Level piece realization.rotation → roofRows profileId piece = 1 →
      PathCovers catalog.width catalog.height realization.lockMask ∨
        PathStopsUnder catalog.width catalog.height (roofRows profileId piece)
          realization.lockMask) := by
  obtain ⟨profile, hprofile⟩ := hconnected
  obtain ⟨hinside, hmask⟩ := hrealizes.inside hcompiled
  have hplaced := hrealizes.placed hcompiled
  have hself : realization = ⟨physicalCells catalog.width piece realization.rotation realization.x
      realization.lockY, realization.rotation, realization.x, realization.lockY⟩ := by
    rw [← hmask]
  refine ⟨fun hcovers board scratch hdrop => ?_, fun hstops => ⟨?_, fun scratch => ?_⟩,
    fun hlevel hrows => ?_⟩
  · obtain ⟨answer, hsearch, hanswer⟩ := hrealizes.searchAnswers hcompiled hprofile board scratch
    have hhoused : Housed catalog.width catalog.height piece realization.rotation realization.x
        realization.lockY := ⟨hplaced, hmask ▸ hcovers⟩
    rw [hself] at hdrop
    rwa [hanswer.mpr (hhoused.lockTruth_of_harddrop hdrop)] at hsearch
  · rw [hmask] at hstops ⊢
    have hdrop := hplaced.harddrop_fullestBoard
      (hplaced.height_of_stops (roofRows_pos profileId piece) hstops)
    rwa [← hself] at hdrop
  · obtain ⟨answer, hsearch, hanswer⟩ := hrealizes.searchAnswers hcompiled hprofile
      (fullestBoard catalog.width catalog.height realization.lockMask) scratch
    have hunder : UnderRoof ⟨catalog.width, catalog.height, piece, profile.supports180, profile,
        fullestBoard catalog.width catalog.height realization.lockMask⟩
        (roofRows profileId piece) := fun row hrow hlast column hcolumn =>
      (getLsbD_fullestBoard hplaced.cells_le).mpr
        ⟨cell_lt_cells hrow hcolumn, hstops row hrow hlast column hcolumn⟩
    have hfalse : answer = false := by
      rw [eq_false_iff]
      intro htrue
      have hover := hunder.reachable hprofile (hanswer.mp htrue).2
      have hlt := hplaced.lockY_lt
      dsimp only at hover
      omega
    rwa [hfalse] at hsearch
  · rw [hrows, hmask]
    exact hplaced.covers_or_stops hlevel

end Shortcut

/-- An `O` on a board four wide with a tower on its right. Nine rows high the path covers everything, and
    the search finds the lock; ten rows high it stops under the tenth, and the lock is lost under it. -/
theorem harddrop_sound_of_covers_O : ∃ low high : GeometryCatalog, ∃ realization,
    compileWithClearRowDomain 4 9 0x888888888 0x66 false ⟨true, true, .ok (), true⟩ = .ok low ∧
      compileWithClearRowDomain 4 10 0x8888888888 0x66 false ⟨true, true, .ok (), true⟩ = .ok high ∧
      Realizes low .O realization ∧ Realizes high .O realization ∧
      lockHarddropReachable 4 0x888888888 realization = true ∧
      SearchAnswers low .O .srsPlus 0x888888888 .empty realization true ∧
      lockHarddropReachable 4 (fullestBoard 4 10 realization.lockMask) realization = true ∧
      SearchAnswers high .O .srsPlus (fullestBoard 4 10 realization.lockMask) .empty realization false ∧
      ¬PathCovers 4 10 realization.lockMask := by
  obtain ⟨low, hlow⟩ : ∃ catalog, compileWithClearRowDomain 4 9 0x888888888 0x66 false
      ⟨true, true, .ok (), true⟩ = .ok catalog := ⟨_, rfl⟩
  obtain ⟨high, hhigh⟩ : ∃ catalog, compileWithClearRowDomain 4 10 0x8888888888 0x66 false
      ⟨true, true, .ok (), true⟩ = .ok catalog := ⟨_, rfl⟩
  have hlowReal : Realizes low .O ⟨physicalCells 4 .O .zero 1 0, .zero, 1, 0⟩ :=
    realizes_of_compile hlow (by unfold Inside; decide) (by decide)
  have hhighReal : Realizes high .O ⟨physicalCells 4 .O .zero 1 0, .zero, 1, 0⟩ :=
    realizes_of_compile hhigh (by unfold Inside; decide) (by decide)
  have hconnected : Connected .srsPlus := ⟨_, rfl⟩
  obtain ⟨hfound, -, -⟩ := harddrop_sound_of_covers ⟨_, _, _, _, _, _, hlow⟩ hlowReal hconnected
  obtain ⟨-, hlost, -⟩ := harddrop_sound_of_covers ⟨_, _, _, _, _, _, hhigh⟩ hhighReal hconnected
  rw [(compile_isCatalog hlow).width_eq, (compile_isCatalog hlow).height_eq] at hfound
  rw [(compile_isCatalog hhigh).width_eq, (compile_isCatalog hhigh).height_eq] at hlost
  have hstops : PathStopsUnder 4 10 (roofRows .srsPlus .O) (physicalCells 4 .O .zero 1 0) := by
    unfold PathStopsUnder
    decide +kernel
  have hdrop : lockHarddropReachable 4 0x888888888
      ⟨physicalCells 4 .O .zero 1 0, .zero, 1, 0⟩ = true := by decide
  exact ⟨low, high, _, hlow, hhigh, hlowReal, hhighReal, hdrop,
    hfound (by unfold PathCovers; decide +kernel) _ _ hdrop, (hlost hstops).1, (hlost hstops).2 _,
    by unfold PathCovers; decide +kernel⟩

/-- Ten rows over the floor the path of an `O` has ended: the test lets it through a filled row, and
    the search does not. -/
theorem harddrop_through_roof : ∃ catalog realization,
    compileWithClearRowDomain 2 10 0xC0000 0xF false ⟨true, true, .ok (), true⟩ = .ok catalog ∧
      Realizes catalog .O realization ∧
      lockHarddropReachable 2 0xC0000 realization = true ∧
      ((ReachabilityTemplate.compile 2 10 .O .srsPlus).bind fun template =>
        (searchReachableLocks template 0xC0000 .empty none).map fun found =>
          found.1.locks.contains 2 realization.rotation realization.x realization.lockY) =
        some false := by
  obtain ⟨catalog, hok⟩ : ∃ catalog, compileWithClearRowDomain 2 10 0xC0000 0xF false
      ⟨true, true, .ok (), true⟩ = .ok catalog := ⟨_, rfl⟩
  have hrealizes : Realizes catalog .O ⟨physicalCells 2 .O .zero 0 0, .zero, 0, 0⟩ :=
    realizes_of_compile hok (by unfold Inside; decide) (by decide)
  exact ⟨catalog, _, hok, hrealizes, by decide, by decide +kernel⟩

end Clearra.Proof.Executor
