import Clearra.Executor.LockWorkspace
import Clearra.Proof.Executor.Catalog
import Clearra.Proof.Executor.Compaction
import Clearra.Proof.Executor.LockCache

/-!
# The workspace is a transparent cache

`LockCache` shows that a query is answered by the hard-drop test or by the truth about the lock. On boards
ten wide the test is a shortcut and no more: at most six rows fit, and the mask over a lock covers eight,
so a lock that passes can fall straight down. The templates a workspace keeps are always those of its
dimensions and its profile, whoever compiled them. So after any calls a query is answered as a search with
nothing remembered answers it.
-/

namespace Clearra.Proof.Executor

open Clearra.Executor ReachabilityWorkspace BitVec Nat Bool Function Option List
open Clearra.Rules

/-! ## Falling straight down -/

theorem getLsbD_or_wrappingShl {path : Board} {d i b : Nat} (hb : b < 2)
    (hi : path.getLsbD i = true) (hlt : i + d * b < 64) :
    (path ||| wrappingShl path d).getLsbD (i + d * b) = true := by
  rw [getLsbD_or, wrappingShl]
  obtain rfl | rfl : b = 0 ∨ b = 1 := by omega
  · rw [Nat.mul_zero, Nat.add_zero, hi, Bool.true_or]
  · rw [Nat.mul_one] at hlt ⊢
    rw [mod_eq_of_lt (by omega), getLsbD_shiftLeft, Nat.add_sub_cancel, hi]
    simp [hlt]

theorem getLsbD_harddropPathMask {lockMask : Board} {width i k : Nat}
    (hi : lockMask.getLsbD i = true) (hk : k < 8) (hlt : i + width * k < 64) :
    (harddropPathMask lockMask width).getLsbD (i + width * k) = true := by
  have hsplit : width * k = width * (k % 2) + width * 2 * (k / 2 % 2) + width * 4 * (k / 4) := by
    have hbits : k = k % 2 + 2 * (k / 2 % 2) + 4 * (k / 4) := by omega
    conv_lhs => rw [hbits]
    ring
  have htwo := getLsbD_or_wrappingShl (d := width * 2) (b := k / 2 % 2) (by omega)
    (getLsbD_or_wrappingShl (d := width) (b := k % 2) (by omega) hi (by omega)) (by omega)
  rw [hsplit, ← Nat.add_assoc, ← Nat.add_assoc, harddropPathMask]
  split
  · exact getLsbD_or_wrappingShl (by omega) htwo (by omega)
  · -- the third doubling is left out where four rows fill the word
    have hfour : k / 4 = 0 := by
      by_contra hne
      have := Nat.mul_le_mul_left width (show 4 ≤ k by omega)
      omega
    rw [hfour, Nat.mul_zero, Nat.add_zero]
    exact htwo

section Harddrop

variable {width height : Nat} {profile : KickTableProfile} {board : Board} {piece : PieceKind}
  {rotation : RotationState} {x lockY : Int}

/-- The path holds every cell over the lock, up to the top of the board. -/
def PathCovers (width height : Nat) (lockMask : Board) : Prop :=
  ∀ column < width, ∀ row < height, ∀ below ≤ row,
    lockMask.getLsbD (below * width + column) = true →
      (harddropPathMask lockMask width).getLsbD (row * width + column) = true

/-- A lock inside the board. -/
structure Placed (width height : Nat) (piece : PieceKind) (rotation : RotationState) (x lockY : Int) :
    Prop where
  cells_le : width * height ≤ 64
  inside : ∀ c ∈ shapeCells piece rotation, (0 ≤ x + c.x ∧ x + c.x < width) ∧
    0 ≤ lockY + c.y ∧ lockY + c.y < height

/-- A lock whose path reaches the top. -/
structure Housed (width height : Nat) (piece : PieceKind) (rotation : RotationState) (x lockY : Int) :
    Prop extends Placed width height piece rotation x lockY where
  covers : PathCovers width height (physicalCells width piece rotation x lockY)

/-- Eight rows over any lock are on its path, so a low board is covered whatever the lock. -/
theorem pathCovers_of_height_le (hcells : width * height ≤ 64) (hheight : height ≤ 8)
    (lockMask : Board) : PathCovers width height lockMask := by
  intro column hcolumn row hrow below hbelow hbit
  have hindex : row * width + column = below * width + column + width * (row - below) := by
    obtain ⟨k, rfl⟩ := Nat.exists_eq_add_of_le hbelow
    rw [Nat.add_sub_cancel_left, Nat.add_mul, Nat.mul_comm k]
    omega
  have hword := cell_lt hcells hrow hcolumn
  rw [hindex] at hword ⊢
  exact getLsbD_harddropPathMask hbit (by omega) hword

section

variable (h : Placed width height piece rotation x lockY)
include h

theorem Placed.fits (profile : KickTableProfile) (board : Board) :
    Arena.Fits ⟨width, height, piece, profile.supports180, profile, board⟩ ⟨rotation, x, lockY⟩ := by
  intro c hc
  obtain ⟨hx, hy, -⟩ := h.inside c hc
  exact ⟨hx.1, hx.2, hy⟩

theorem Placed.lockY_nonneg : 0 ≤ lockY :=
  (h.fits ⟨.noKick, []⟩ 0).y_nonneg

theorem Placed.lockY_lt : lockY < height := by
  obtain ⟨c, hc, hy⟩ := exists_shapeCell_y_zero piece rotation
  have hlt := (h.inside c hc).2.2
  rw [hy] at hlt
  simpa using hlt

theorem Placed.getLsbD_physicalCells {c : ShapeCell} (hc : c ∈ shapeCells piece rotation) :
    (physicalCells width piece rotation x lockY).getLsbD
      ((lockY + c.y).toNat * width + (x + c.x).toNat) = true := by
  obtain ⟨hx, hy⟩ := h.inside c hc
  rw [physicalCells, getLsbD_lockCells]
  exact ⟨cell_lt h.cells_le (by omega) (by omega), c, hc, rfl⟩

theorem Placed.grounded (hground : lockY = 0 ∨
      board &&& (physicalCells width piece rotation x lockY >>> (width % 64)) ≠ 0) :
    Arena.Grounded ⟨width, height, piece, profile.supports180, profile, board⟩
      ⟨rotation, x, lockY⟩ := by
  rintro ⟨-, hfits, hclear⟩
  have hfloor : 0 ≤ lockY - 1 := hfits.y_nonneg
  have hwidth : width % 64 = width := by
    -- a board 64 wide has one row
    have hrows := h.lockY_lt
    have := Nat.mul_le_mul_left width (show 2 ≤ height by omega)
    have := h.cells_le
    omega
  rcases hground with hzero | hbelow
  · omega
  · refine hbelow (Lib.and_eq_zero_iff.mpr fun j hboard hcell => ?_)
    rw [hwidth, getLsbD_ushiftRight, physicalCells, getLsbD_lockCells] at hcell
    obtain ⟨-, c, hc, hj⟩ := hcell
    obtain ⟨hx, hrow⟩ := h.inside c hc
    obtain ⟨-, -, hbase⟩ := hfits c hc
    have hfree := hclear c hc (by dsimp only [translationCandidates]; omega)
    dsimp only [translationCandidates, id_eq] at hfree hj hbase
    have hindex : (lockY - 1 + c.y).toNat * width + (x + c.x).toNat = j := by
      have hrows : (lockY + c.y).toNat = (lockY - 1 + c.y).toNat + 1 := by omega
      rw [hrows, Nat.succ_mul] at hj
      omega
    rw [hindex, hboard] at hfree
    simp at hfree

end

section

variable (h : Housed width height piece rotation x lockY)
include h

/-- Over a clear path the pose is free at every height. -/
theorem Housed.free (profile : KickTableProfile)
    (hpath : board &&& harddropPathMask (physicalCells width piece rotation x lockY) width = 0)
    {n : Nat} (hn : lockY + n ≤ height) :
    let g : Arena := ⟨width, height, piece, profile.supports180, profile, board⟩
    g.Free (some (ceilingOf g)) ⟨rotation, x, lockY + n⟩ := by
  intro g
  have hy := h.lockY_nonneg
  refine ⟨Arena.under_some.mpr ?_, (h.fits profile board).of_row (by omega), ?_⟩
  · have hceiling : height ≤ ceilingOf g := Nat.le_add_right _ _
    dsimp only
    omega
  · intro c hc hlt
    obtain ⟨hx, hrow⟩ := h.inside c hc
    dsimp only [g] at hlt ⊢
    have hbit := h.covers (x + c.x).toNat (by omega) (lockY + n + c.y).toNat (by omega)
      (lockY + c.y).toNat (by omega) (h.getLsbD_physicalCells hc)
    rw [eq_false_iff]
    intro hboard
    exact (Lib.and_eq_zero_iff.mp hpath) _ hboard hbit

theorem Housed.reachable
    (hpath : board &&& harddropPathMask (physicalCells width piece rotation x lockY) width = 0) :
    let g : Arena := ⟨width, height, piece, profile.supports180, profile, board⟩
    g.Reachable (some (ceilingOf g)) ⟨rotation, x, lockY⟩ := by
  intro g
  have hlt := h.lockY_lt
  obtain ⟨drop, hdrop⟩ : ∃ drop : Nat, lockY + drop = height := ⟨(height - lockY).toNat, by omega⟩
  have hsky : g.Sky (some (ceilingOf g)) ⟨rotation, x, lockY + drop⟩ := by
    have hfree := h.free profile hpath (n := drop) hdrop.le
    exact ⟨hfree.1, hfree.2.1, hdrop.ge⟩
  -- one row after another
  have hfall : ∀ m ≤ drop, Relation.ReflTransGen (g.Move (some (ceilingOf g)))
      ⟨rotation, x, lockY + drop⟩ ⟨rotation, x, lockY + ((drop - m : Nat) : Int)⟩ := by
    intro m
    induction m with
    | zero => exact fun _ => .refl
    | succ m ih =>
      intro hm
      refine (ih (by omega)).tail ?_
      have hdown : translationCandidates ⟨rotation, x, lockY + ((drop - m : Nat) : Int)⟩ 0 =
          ⟨rotation, x, lockY + ((drop - (m + 1) : Nat) : Int)⟩ := by
        dsimp only [translationCandidates]
        congr 1
        omega
      have hfree := h.free profile hpath (n := drop - (m + 1)) (by omega)
      rw [← hdown] at hfree ⊢
      exact .translate _ 0 hfree
  have hlast := hfall drop (Nat.le_refl drop)
  rw [Nat.sub_self, cast_zero, Int.add_zero] at hlast
  exact ⟨_, hsky, hlast⟩

/-- The hard-drop test passes only what a search finds. -/
theorem Housed.lockTruth_of_harddrop (hdrop : lockHarddropReachable width board
      ⟨physicalCells width piece rotation x lockY, rotation, x, lockY⟩ = true) :
    LockTruth width height profile board piece rotation x lockY := by
  rw [lockHarddropReachable, and_eq_true, or_eq_true,
    decide_eq_true_eq, decide_eq_true_eq, decide_eq_true_eq] at hdrop
  exact ⟨h.grounded hdrop.1, h.reachable hdrop.2⟩

end

end Harddrop

/-! ## Templates -/

/-- The profile has a table, so that templates can be compiled for it. -/
def Connected (profileId : KickTableProfileId) : Prop :=
  ∃ profile, builtinKickProfile profileId = some profile

theorem Connected.compile {profileId : KickTableProfileId} (h : Connected profileId)
    (width height : Nat) (piece : PieceKind) :
    ∃ template, ReachabilityTemplate.compile width height piece profileId = some template := by
  obtain ⟨profile, hprofile⟩ := h
  rw [ReachabilityTemplate.compile, hprofile]
  exact ⟨_, rfl⟩

/-- What the workspace keeps is of its dimensions and its profile. -/
structure TemplatesSound (ws : TemplatedWorkspace) : Prop where
  cached : WorkspaceSound ws.toReachabilityWorkspace
  templates : ∀ piece template, ws.templates piece = some template →
    ∃ width height, ws.templateDimensions = some (width, height) ∧
      ReachabilityTemplate.compile width height piece ws.kickProfileId = some template
  shared : ∀ table ∈ ws.sharedTemplates, Connected table.profile

theorem templatesSound_initial : TemplatesSound .initial :=
  ⟨workspaceSound_initial, fun _ _ h => absurd h (by simp [TemplatedWorkspace.initial]),
    fun _ h => absurd h (by simp [TemplatedWorkspace.initial])⟩

/-- What a shared table gives is what compiling would have given. -/
theorem shared_template_eq (shared : SharedReachabilityTemplates) (piece : PieceKind)
    (hconnected : Connected shared.profile) :
    ∃ template after, shared.template piece = some (template, after) ∧
      ReachabilityTemplate.compile shared.width shared.height piece shared.profile = some template ∧
      after.profile = shared.profile := by
  rw [SharedReachabilityTemplates.template]
  split
  · rename_i found hfound
    exact ⟨found, shared, rfl, shared.compiled piece found hfound, rfl⟩
  · split
    · rename_i hnone
      obtain ⟨template, htemplate⟩ := hconnected.compile shared.width shared.height piece
      exact absurd (hnone.symm.trans htemplate) (by simp)
    · rename_i found hfound
      exact ⟨found, _, rfl, hfound, rfl⟩

section Templates

variable {ws : TemplatedWorkspace} {catalog : GeometryCatalog} {piece : PieceKind}

section

variable (h : TemplatesSound ws)
include h

theorem TemplatesSound.clear : TemplatesSound ws.clearCachePreservingPolicy :=
  ⟨fun _ _ _ _ _ => cacheSound_of_nil rfl, h.templates, h.shared⟩

theorem TemplatesSound.changeProfile (profileId : KickTableProfileId) :
    TemplatesSound (ws.changeProfile profileId) ∧
      (ws.changeProfile profileId).kickProfileId = profileId := by
  rw [TemplatedWorkspace.changeProfile]
  split
  · refine ⟨⟨fun _ _ _ _ _ => cacheSound_of_nil rfl, fun _ _ hnone => ?_, h.shared⟩, rfl⟩
    exact absurd hnone (by simp [TemplatedWorkspace.clearCachePreservingPolicy])
  · rename_i hsame
    exact ⟨h, not_not.mp hsame⟩

/-- The profile that was configured last is the one in use. -/
def ProfileKept (ws : TemplatedWorkspace) : Prop := ∀ id ∈ ws.conditionedProfile, ws.kickProfileId = id

theorem TemplatesSound.configureKickProfile (hkept : ProfileKept ws)
    (profileId : KickTableProfileId) (conditionedEnabled policyEnabled : Bool) :
    TemplatesSound (ws.configureKickProfile profileId conditionedEnabled policyEnabled) ∧
      ProfileKept (ws.configureKickProfile profileId conditionedEnabled policyEnabled) ∧
      (ws.configureKickProfile profileId conditionedEnabled policyEnabled).kickProfileId = profileId := by
  rw [TemplatedWorkspace.configureKickProfile]
  split
  · rename_i hsame
    exact ⟨h, hkept, hkept profileId hsame.1⟩
  · have hcleared : TemplatesSound (if ws.conditionedPolicyEnabled.any (· ≠ policyEnabled) then
        ws.clearCachePreservingPolicy else ws) := by
      split
      · exact h.clear
      · exact h
    obtain ⟨hsound, hprofile⟩ := hcleared.changeProfile profileId
    refine ⟨⟨hsound.cached, hsound.templates, hsound.shared⟩, ?_, hprofile⟩
    intro id hid
    exact hprofile.trans (Option.some.inj hid)

theorem TemplatesSound.changeDimensions (width height : Nat) :
    TemplatesSound (ws.changeDimensions width height) ∧
      (ws.changeDimensions width height).templateDimensions = some (width, height) ∧
      (ws.changeDimensions width height).kickProfileId = ws.kickProfileId ∧
      (ws.changeDimensions width height).conditionedProfile = ws.conditionedProfile := by
  rw [TemplatedWorkspace.changeDimensions]
  split
  · exact ⟨⟨fun _ _ _ _ _ => cacheSound_of_nil rfl, by simp, h.shared⟩, rfl, rfl, rfl⟩
  · rename_i hsame
    exact ⟨h, not_not.mp hsame, rfl, rfl⟩

/-- The workspace after a template was kept. -/
theorem TemplatesSound.keep {width height : Nat}
    (hdims : ws.templateDimensions = some (width, height)) {template : ReachabilityTemplate}
    (htemplate : ReachabilityTemplate.compile width height piece ws.kickProfileId = some template)
    {shared : Option SharedReachabilityTemplates}
    (hshared : ∀ table ∈ shared, Connected table.profile) :
    TemplatesSound { ws with
      templates := Function.update ws.templates piece (some template), sharedTemplates := shared } := by
  refine ⟨h.cached, fun other found hfound => ?_, hshared⟩
  change Function.update ws.templates piece (some template) other = some found at hfound
  by_cases hother : other = piece
  · subst hother
    rw [update_self] at hfound
    exact ⟨width, height, hdims, htemplate.trans hfound⟩
  · rw [update_of_ne hother] at hfound
    exact h.templates other found hfound

/-- What `template` leaves: its template is kept, and nothing else is different that matters. -/
structure Prepares (ws : TemplatedWorkspace) (catalog : GeometryCatalog) (piece : PieceKind)
    (ws' : TemplatedWorkspace) : Prop where
  sound : TemplatesSound ws'
  dimensions_eq : ws'.templateDimensions = some (catalog.width, catalog.height)
  profile_eq : ws'.kickProfileId = ws.kickProfileId
  conditioned_eq : ws'.conditionedProfile = ws.conditionedProfile
  template_eq : ws'.templates piece =
    ReachabilityTemplate.compile catalog.width catalog.height piece ws'.kickProfileId

/-- Found, shared or new, the template is the one of the dimensions and the profile. -/
theorem TemplatesSound.prepareTemplate (hconnected : Connected ws.kickProfileId)
    (catalog : GeometryCatalog) (piece : PieceKind) :
    ∃ ws', ws.prepareTemplate catalog piece = some ws' ∧ Prepares ws catalog piece ws' := by
  obtain ⟨hsound, hdims, hprofile, hconditioned⟩ := h.changeDimensions catalog.width catalog.height
  rw [← hprofile] at hconnected
  rw [TemplatedWorkspace.prepareTemplate, TemplatedWorkspace.template]
  dsimp only
  split
  · rename_i found hfound
    obtain ⟨width, height, hdims', hcompile⟩ := hsound.templates piece found hfound
    obtain ⟨rfl, rfl⟩ := Prod.mk.inj (Option.some.inj (hdims'.symm.trans hdims))
    exact ⟨_, rfl, hsound, hdims, hprofile, hconditioned, hfound.trans hcompile.symm⟩
  · split
    · rename_i shared hshared
      obtain ⟨htable, hagrees⟩ := filter_eq_some_iff.mp hshared
      obtain ⟨template, after, htemplate, hcompile, hafter⟩ :=
        shared_template_eq shared piece (hsound.shared shared htable)
      simp only [SharedReachabilityTemplates.agrees, and_eq_true, decide_eq_true_eq] at hagrees
      rw [hagrees.1.1, hagrees.1.2, hagrees.2] at hcompile
      rw [htemplate]
      refine ⟨_, rfl, hsound.keep hdims hcompile ?_, hdims, hprofile, hconditioned, ?_⟩
      · intro table htable'
        rw [← Option.some.inj htable', hafter]
        exact hsound.shared shared htable
      · exact (update_self ..).trans hcompile.symm
    · obtain ⟨template, hcompile⟩ := hconnected.compile catalog.width catalog.height piece
      rw [hcompile]
      exact ⟨_, rfl, hsound.keep hdims hcompile hsound.shared, hdims, hprofile, hconditioned,
        (update_self ..).trans hcompile.symm⟩

end

/-- With the template of the catalog at hand, the workspace does what one without templates does. -/
theorem lockReachableCached_eq (storage : Bool) (board : Board) (r : RotationState) (x y : Int)
    (htemplate : ws.templates piece =
      ReachabilityTemplate.compile catalog.width catalog.height piece ws.kickProfileId) :
    ws.lockReachableCached storage catalog board piece r x y =
      (ws.toReachabilityWorkspace.lockReachableCached storage catalog.width catalog.height board piece
        r x y).map fun found => (found.1, { ws with toReachabilityWorkspace := found.2 }) := by
  rw [TemplatedWorkspace.lockReachableCached, lockReachableCached, htemplate]
  cases hquery : ws.cache.query storage board piece catalog.width r x y with
  | mk lookup cache =>
    cases lookup with
    | reachable => rfl
    | exhaustivelyUnreachable => rfl
    | search exhaustive admitted =>
      cases ReachabilityTemplate.compile catalog.width catalog.height piece ws.kickProfileId with
      | none => rfl
      | some template =>
        dsimp only [bind_eq_bind, bind_some]
        cases searchLock template board catalog.width r x y exhaustive
            ws.scratch with
        | none => rfl
        | some found => rfl

end Templates

/-! ## Histories -/

def CompiledCatalog (catalog : GeometryCatalog) : Prop :=
  ∃ width height initialBoard requiredCells buildTarget storage,
    compileWithClearRowDomain width height initialBoard requiredCells buildTarget storage = .ok catalog

/-- One of the ways to lock the piece that the catalog lists, with some rows deleted before. -/
def Realizes (catalog : GeometryCatalog) (piece : PieceKind) (realization : InstantiatedRealization) :
    Prop :=
  ∃ rowId row deleted, catalog.skeletons[rowId]? = some row ∧ row.piece = piece ∧
    RowsBelow catalog.height deleted ∧ realization ∈ catalog.instantiations rowId deleted

/-- A call that may be made under a profile: no template is asked for without a table to compile it. -/
def CallAdmissible (profile : KickTableProfileId) : WorkspaceCall → Prop
  | .setSharedTemplates templates => Connected templates.profile
  | .prepareTemplate _ _ => Connected profile
  | .lockReachable _ catalog _ piece realization =>
    Connected profile ∧ CompiledCatalog catalog ∧ Realizes catalog piece realization
  | .shared _ | .configure _ | .configureKickProfile _ _ _ => True

def Admissible : KickTableProfileId → List WorkspaceCall → Prop
  | _, [] => True
  | profile, call :: rest => CallAdmissible profile call ∧ Admissible (call.profileAfter profile) rest

/-- The profile in use after the calls. -/
def currentProfile (calls : List WorkspaceCall) : KickTableProfileId :=
  calls.foldl WorkspaceCall.profileAfter .srsPlus

/-- What holds of a workspace between calls. -/
structure WorkspaceKeeps (profile : KickTableProfileId) (ws : TemplatedWorkspace) : Prop where
  sound : TemplatesSound ws
  kept : ProfileKept ws
  profile_eq : ws.kickProfileId = profile

theorem workspaceKeeps_initial : WorkspaceKeeps .srsPlus .initial :=
  ⟨templatesSound_initial, fun _ h => absurd h (by simp [TemplatedWorkspace.initial]), rfl⟩

section Histories

variable {profileId : KickTableProfileId} {ws : TemplatedWorkspace} {catalog : GeometryCatalog}
  {piece : PieceKind} {realization : InstantiatedRealization}

theorem CompiledCatalog.bounds (h : CompiledCatalog catalog) :
    0 < catalog.height ∧ catalog.width * catalog.height ≤ 64 := by
  obtain ⟨width, height, initialBoard, requiredCells, buildTarget, storage, hcompile⟩ := h
  have hcatalog := compile_isCatalog hcompile
  rw [hcatalog.width_eq, hcatalog.height_eq]
  exact ⟨hcatalog.height_pos, hcatalog.cells_le⟩

/-- A realization of the catalog lies in its board, and its mask is its cells. -/
theorem Realizes.inside (h : Realizes catalog piece realization) (hcompiled : CompiledCatalog catalog) :
    (∀ c ∈ shapeCells piece realization.rotation,
      (0 ≤ realization.x + c.x ∧ realization.x + c.x < catalog.width) ∧
        0 ≤ realization.lockY + c.y ∧ realization.lockY + c.y < catalog.height) ∧
      realization.lockMask = physicalCells catalog.width piece realization.rotation realization.x
        realization.lockY := by
  obtain ⟨width, height, initialBoard, requiredCells, buildTarget, storage, hcompile⟩ := hcompiled
  have hcatalog := compile_isCatalog hcompile
  obtain ⟨rowId, row, deleted, hrow, rfl, hdel, hmem⟩ := h
  rw [hcatalog.height_eq] at hdel
  obtain ⟨hin, -, hmask⟩ := hcatalog.of_mem_instantiations hdel hrow hmem
  rw [hcatalog.width_eq, hcatalog.height_eq]
  refine ⟨fun c hc => ?_, hmask⟩
  obtain ⟨hx, hy⟩ := hin c hc
  exact ⟨hx, hy.1, by omega⟩

theorem Realizes.lockY_lt (h : Realizes catalog piece realization)
    (hcompiled : CompiledCatalog catalog) : realization.lockY < catalog.height := by
  obtain ⟨c, hc, hy⟩ := exists_shapeCell_y_zero piece realization.rotation
  have hlt := ((h.inside hcompiled).1 c hc).2.2
  rw [hy] at hlt
  simpa using hlt

/-- A query, whatever the board and the dimensions. -/
theorem WorkspaceKeeps.lockReachable (h : WorkspaceKeeps profileId ws) {profile : KickTableProfile}
    (hprofile : builtinKickProfile profileId = some profile) (hcompiled : CompiledCatalog catalog)
    (hrealizes : Realizes catalog piece realization) (storage : Bool) (board : Board) :
    ∃ answer ws', ws.lockReachableInstantiated storage catalog board piece realization =
        some (answer, ws') ∧ WorkspaceKeeps profileId ws' ∧ (answer = true ↔
        WorkspaceReaches catalog.width catalog.height profile board piece realization) := by
  rw [TemplatedWorkspace.lockReachableInstantiated]
  split
  · rename_i hdrop
    exact ⟨true, ws, rfl, h, fun _ => .inl hdrop, fun _ => rfl⟩
  · rename_i hdrop
    rw [← h.profile_eq] at hprofile
    obtain ⟨prepared, hprepared, hprepares⟩ :=
      h.sound.prepareTemplate ⟨profile, hprofile⟩ catalog piece
    rw [← hprepares.profile_eq] at hprofile
    obtain ⟨answer, ws', hrun, hsound, hkeep, hdims, hanswer⟩ :=
      lockReachableCached_spec hprepares.sound.cached storage hcompiled.bounds.1 hcompiled.bounds.2
        hprofile hprepares.dimensions_eq board piece realization.rotation (x := realization.x)
        (hrealizes.lockY_lt hcompiled)
    refine ⟨answer, { prepared with toReachabilityWorkspace := ws' }, ?_, ⟨⟨hsound, ?_, ?_⟩, ?_, ?_⟩,
      hanswer.trans ⟨Or.inr, fun hreach => hreach.resolve_left hdrop⟩⟩
    · rw [hprepared]
      dsimp only [bind_eq_bind, bind_some]
      rw [lockReachableCached_eq storage board _ _ _ hprepares.template_eq, hrun]
      rfl
    · intro other template htemplate
      obtain ⟨width, height, hdims', hcompile⟩ := hprepares.sound.templates other template htemplate
      refine ⟨width, height, ?_, ?_⟩
      · exact hdims.trans (hprepares.dimensions_eq.symm.trans hdims')
      · exact hkeep ▸ hcompile
    · exact hprepares.sound.shared
    · intro id hid
      have hid' : id ∈ ws.conditionedProfile := hprepares.conditioned_eq ▸ hid
      exact hkeep.trans (hprepares.profile_eq.trans (h.kept id hid'))
    · exact hkeep.trans (hprepares.profile_eq.trans h.profile_eq)

theorem WorkspaceKeeps.run (h : WorkspaceKeeps profileId ws) {call : WorkspaceCall}
    (hcall : CallAdmissible profileId call) :
    ∃ ws', call.run ws = some ws' ∧ WorkspaceKeeps (call.profileAfter profileId) ws' := by
  cases call with
  | setSharedTemplates templates =>
    refine ⟨_, rfl, ?_⟩
    rw [TemplatedWorkspace.setSharedTemplates]
    split
    · exact h
    · refine ⟨⟨h.sound.cached, h.sound.templates, fun table htable => ?_⟩, h.kept, h.profile_eq⟩
      rw [← Option.some.inj htable]
      exact hcall
  | shared piece =>
    rw [WorkspaceCall.run]
    split
    · exact ⟨ws, rfl, h⟩
    · rename_i table htable
      have hconnected := h.sound.shared table htable
      obtain ⟨template, after, htemplate, -, hafter⟩ := shared_template_eq table piece hconnected
      rw [htemplate]
      refine ⟨_, rfl, ⟨h.sound.cached, h.sound.templates, fun other hother => ?_⟩, h.kept, h.profile_eq⟩
      rw [← Option.some.inj hother, hafter]
      exact hconnected
  | configure operationCount =>
    exact ⟨_, rfl, ⟨h.sound.cached.configure operationCount, h.sound.templates, h.sound.shared⟩,
      h.kept, h.profile_eq⟩
  | configureKickProfile id conditionedEnabled policyEnabled =>
    obtain ⟨hsound, hkept, hprofile⟩ :=
      h.sound.configureKickProfile h.kept id conditionedEnabled policyEnabled
    exact ⟨_, rfl, hsound, hkept, hprofile⟩
  | prepareTemplate catalog piece =>
    have hconnected : Connected ws.kickProfileId := h.profile_eq ▸ hcall
    obtain ⟨ws', hrun, hprepares⟩ := h.sound.prepareTemplate hconnected catalog piece
    refine ⟨ws', hrun, hprepares.sound, fun id hid => ?_, hprepares.profile_eq.trans h.profile_eq⟩
    exact hprepares.profile_eq.trans (h.kept id (hprepares.conditioned_eq ▸ hid))
  | lockReachable storage catalog board piece realization =>
    obtain ⟨⟨profile, hprofile⟩, hcompiled, hrealizes⟩ := hcall
    obtain ⟨answer, ws', hrun, hkeeps, -⟩ :=
      h.lockReachable hprofile hcompiled hrealizes storage board
    refine ⟨ws', ?_, hkeeps⟩
    rw [WorkspaceCall.run, hrun]
    rfl

theorem WorkspaceKeeps.runs {calls : List WorkspaceCall} (h : WorkspaceKeeps profileId ws)
    (hcalls : Admissible profileId calls) :
    ∃ ws', calls.foldlM WorkspaceCall.run ws = some ws' ∧
      WorkspaceKeeps (calls.foldl WorkspaceCall.profileAfter profileId) ws' := by
  induction calls generalizing profileId ws with
  | nil => exact ⟨ws, rfl, h⟩
  | cons call rest ih =>
    obtain ⟨next, hrun, hkeeps⟩ := h.run hcalls.1
    obtain ⟨ws', hrest, hfinal⟩ := ih hkeeps hcalls.2
    refine ⟨ws', ?_, hfinal⟩
    rw [foldlM_cons, hrun]
    exact hrest

/-- On boards ten wide the hard-drop test adds nothing to the search. -/
theorem Realizes.workspaceReaches_iff (h : Realizes catalog piece realization)
    (hcompiled : CompiledCatalog catalog) (hwidth : catalog.width = 10) {profile : KickTableProfile}
    {board : Board} :
    WorkspaceReaches 10 catalog.height profile board piece realization ↔
      LockTruth 10 catalog.height profile board piece realization.rotation realization.x
        realization.lockY := by
  obtain ⟨hinside, hmask⟩ := h.inside hcompiled
  have hbounds := hcompiled.bounds.2
  rw [hwidth] at hinside hmask hbounds
  refine ⟨fun hreach => hreach.elim (fun hdrop => ?_) id, Or.inr⟩
  -- ten wide, the word ends before the path does
  have hhoused : Housed 10 catalog.height piece realization.rotation realization.x realization.lockY :=
    ⟨⟨hbounds, hinside⟩, pathCovers_of_height_le hbounds (by omega) _⟩
  refine hhoused.lockTruth_of_harddrop ?_
  rw [← hmask]
  exact hdrop

/-- A lock over required cells is listed while no row has been deleted. -/
theorem realizes_of_compile {width height : Nat} {initialBoard requiredCells : Board}
    {buildTarget : Bool} {storage : CatalogStorage}
    (hok : compileWithClearRowDomain width height initialBoard requiredCells buildTarget storage =
      .ok catalog) {rotation : RotationState} {x lockY : Int}
    (hin : Inside width height 0 piece rotation x lockY)
    (hreq : ∀ k < 64, (targetCells width height 0 piece rotation x lockY).getLsbD k = true →
      requiredCells.getLsbD k = true) :
    Realizes catalog piece ⟨physicalCells width piece rotation x lockY, rotation, x, lockY⟩ := by
  have hcatalog := compile_isCatalog hok
  have hdel : RowsBelow height 0 := fun r hr => absurd hr (by simp)
  have hallowed : ∀ t, (0 : Rows).getLsbD t = true →
      allowsRow (clearRowDomain width height initialBoard requiredCells buildTarget) t := by simp
  obtain ⟨id, row, hrow, hpiece, hcells⟩ := hcatalog.exists_skeleton hdel hallowed hin
    fun k hk => hreq k (lt_of_getLsbD hk) hk
  refine ⟨id, row, 0, hrow, hpiece, hcatalog.height_eq ▸ hdel, ?_⟩
  rw [hcatalog.mem_instantiations hdel hallowed hrow, hpiece]
  exact ⟨hin, hcells.symm, rfl⟩

end Histories

/-- After any calls, a query on a board ten wide is answered as the search from nothing answers it, under
    the profile and the dimensions of the query. -/
theorem lockReachable_eq_search (calls : List WorkspaceCall) (hcalls : Admissible .srsPlus calls)
    (hconnected : Connected (currentProfile calls)) {catalog : GeometryCatalog}
    (hcompiled : CompiledCatalog catalog) (hwidth : catalog.width = 10) {piece : PieceKind}
    {realization : InstantiatedRealization} (hrealizes : Realizes catalog piece realization)
    (storage : Bool) (board : Board) :
    ∃ ws template forward scratch ws',
      calls.foldlM WorkspaceCall.run .initial = some ws ∧
      ReachabilityTemplate.compile 10 catalog.height piece (currentProfile calls) = some template ∧
      searchReachableLocks template board .empty none = some (forward, scratch) ∧
      ws.lockReachableInstantiated storage catalog board piece realization =
        some (forward.locks.contains 10 realization.rotation realization.x realization.lockY, ws') := by
  obtain ⟨profile, hprofile⟩ := hconnected
  obtain ⟨ws, hrun, hkeeps⟩ := workspaceKeeps_initial.runs hcalls
  obtain ⟨answer, ws', hquery, -, hanswer⟩ :=
    hkeeps.lockReachable hprofile hcompiled hrealizes storage board
  obtain ⟨hheight, hcells⟩ := hcompiled.bounds
  rw [hwidth] at hcells hanswer
  let g : Arena := ⟨10, catalog.height, piece, profile.supports180, profile, board⟩
  have hsmall : Small g := .of_cells hprofile hheight hcells
  obtain ⟨forward, after, hforward, -, hlocks⟩ := searchReachableLocks_spec hsmall hcells .empty
  have hsame : answer =
      forward.locks.contains 10 realization.rotation realization.x realization.lockY := by
    rw [Bool.eq_iff_iff, hanswer, hrealizes.workspaceReaches_iff hcompiled hwidth]
    exact (hlocks _ _ _ (hrealizes.lockY_lt hcompiled)).symm
  refine ⟨ws, templateOf g, forward, after, ws', hrun, ?_, hforward, hsame ▸ hquery⟩
  rw [ReachabilityTemplate.compile, hprofile]
  rfl

/-- An `I` under an overhang, which the hard-drop test does not pass, asked for three times: the first
    query counts the board, the second fills a slot, the third is answered from it. -/
theorem lockReachable_eq_search_I : ∃ catalog realization ws template forward scratch ws',
    compileWithClearRowDomain 10 2 0x2000 0x78 false ⟨true, true, .ok (), true⟩ = .ok catalog ∧
      Realizes catalog .I realization ∧
      lockHarddropReachable 10 0x2000 realization = false ∧
      [WorkspaceCall.configureKickProfile .noKick true false, .configure 5,
        .prepareTemplate catalog .I, .lockReachable true catalog 0x2000 .I realization,
        .lockReachable true catalog 0x2000 .I realization].foldlM WorkspaceCall.run .initial =
          some ws ∧
      ReachabilityTemplate.compile 10 catalog.height .I .noKick = some template ∧
      searchReachableLocks template 0x2000 .empty none = some (forward, scratch) ∧
      ws.lockReachableInstantiated true catalog 0x2000 .I realization =
        some (forward.locks.contains 10 realization.rotation realization.x realization.lockY, ws') := by
  obtain ⟨catalog, hok⟩ : ∃ catalog, compileWithClearRowDomain 10 2 0x2000 0x78 false
      ⟨true, true, .ok (), true⟩ = .ok catalog := ⟨_, rfl⟩
  have hrealizes : Realizes catalog .I ⟨physicalCells 10 .I .zero 3 0, .zero, 3, 0⟩ :=
    realizes_of_compile hok (by unfold Inside; decide) (by decide)
  have hcompiled : CompiledCatalog catalog := ⟨_, _, _, _, _, _, hok⟩
  have hconnected : Connected .noKick := ⟨_, rfl⟩
  have hadmissible := And.intro hconnected (And.intro hcompiled hrealizes)
  obtain ⟨ws, template, forward, scratch, ws', hrun, htemplate, hforward, hquery⟩ :=
    lockReachable_eq_search [.configureKickProfile .noKick true false, .configure 5,
      .prepareTemplate catalog .I, .lockReachable true catalog 0x2000 .I _,
      .lockReachable true catalog 0x2000 .I _]
      ⟨trivial, trivial, hconnected, hadmissible, hadmissible, trivial⟩ hconnected hcompiled
      (compile_isCatalog hok).width_eq hrealizes true 0x2000
  exact ⟨catalog, _, ws, template, forward, scratch, ws', hok, hrealizes, by decide, hrun, htemplate,
    hforward, hquery⟩

end Clearra.Proof.Executor
