import Clearra.Executor.LockCache

/-!
# The workspace with its templates

`LockCache` recompiles a template where it needs one. The workspace itself keeps the templates it has
compiled, one for each piece, and may take them from a table that the workers of one request share; it
has to drop them, and the cached answers, when the dimensions or the kick profile change. No
conditioned source of answers is installed here, so that all its setting does is to clear the cache
when the policy changes.

A shared table fills up as any worker asks it: `shared` is that another worker did. Where the source would
panic, because it compiles a profile that has no table, there is no result.
-/

namespace Clearra.Executor

open Rules

/-! ## Shared templates -/

/-- What is in the table was compiled for its dimensions and its profile. -/
structure SharedReachabilityTemplates where
  width : Nat
  height : Nat
  profile : KickTableProfileId
  templates : PieceKind → Option ReachabilityTemplate
  compiled : ∀ piece template, templates piece = some template →
    ReachabilityTemplate.compile width height piece profile = some template

namespace SharedReachabilityTemplates

/-- `matches`. -/
def agrees (shared : SharedReachabilityTemplates) (width height : Nat)
    (profile : KickTableProfileId) : Bool :=
  shared.width = width && shared.height = height && shared.profile = profile

/-- `get_or_init`: the template of a piece, compiled by the first who asks. -/
def template (shared : SharedReachabilityTemplates) (piece : PieceKind) :
    Option (ReachabilityTemplate × SharedReachabilityTemplates) :=
  match shared.templates piece with
  | some template => some (template, shared)
  | none =>
    match hcompile : ReachabilityTemplate.compile shared.width shared.height piece shared.profile with
    | none => none
    | some template => some (template,
        { shared with
          templates := Function.update shared.templates piece (some template)
          compiled := by
            intro other found hfound
            by_cases hother : other = piece
            · subst hother
              rw [Function.update_self] at hfound
              rw [hcompile, hfound]
            · rw [Function.update_of_ne hother] at hfound
              exact shared.compiled other found hfound })

end SharedReachabilityTemplates

/-! ## The workspace -/

structure TemplatedWorkspace extends ReachabilityWorkspace where
  templates : PieceKind → Option ReachabilityTemplate
  sharedTemplates : Option SharedReachabilityTemplates
  conditionedProfile : Option KickTableProfileId
  conditionedEnabled : Option Bool
  conditionedPolicyEnabled : Option Bool

namespace TemplatedWorkspace

/-- `Default`. -/
def initial : TemplatedWorkspace := ⟨.initial, fun _ => none, none, none, none, none⟩

def setSharedTemplates (ws : TemplatedWorkspace) (templates : SharedReachabilityTemplates) :
    Except String TemplatedWorkspace :=
  if ws.sharedTemplates.isSome ∨ ws.templateDimensions.isSome then
    .error "wasm_shared_reachability_request_already_initialized"
  else .ok { ws with sharedTemplates := some templates }

def configure (ws : TemplatedWorkspace) (operationCount : Nat) : TemplatedWorkspace :=
  { ws with toReachabilityWorkspace := ws.toReachabilityWorkspace.configure operationCount }

/-- `clear_cache_preserving_policy`. -/
def clearCachePreservingPolicy (ws : TemplatedWorkspace) : TemplatedWorkspace :=
  { ws with toReachabilityWorkspace := ws.toReachabilityWorkspace.clearCachePreservingPolicy }

/-- The change of the profile within `configure_kick_profile`. -/
def changeProfile (ws : TemplatedWorkspace) (profileId : KickTableProfileId) : TemplatedWorkspace :=
  if ws.kickProfileId ≠ profileId then
    { ws with kickProfileId := profileId, templates := fun _ => none,
              templateDimensions := none }.clearCachePreservingPolicy
  else ws

/-- `configure_kick_profile`; the policy is a setting of the process, read here. -/
def configureKickProfile (ws : TemplatedWorkspace) (profileId : KickTableProfileId)
    (conditionedEnabled policyEnabled : Bool) : TemplatedWorkspace :=
  if ws.conditionedProfile = some profileId ∧ ws.conditionedEnabled = some conditionedEnabled ∧
      ws.conditionedPolicyEnabled = some policyEnabled then ws
  else
    let ws := if ws.conditionedPolicyEnabled.any (· ≠ policyEnabled) then
        ws.clearCachePreservingPolicy else ws
    let ws := ws.changeProfile profileId
    { ws with
      conditionedProfile := some profileId
      conditionedEnabled := some conditionedEnabled
      conditionedPolicyEnabled := some policyEnabled }

/-- Templates and answers of other dimensions are dropped. -/
def changeDimensions (ws : TemplatedWorkspace) (width height : Nat) : TemplatedWorkspace :=
  if ws.templateDimensions ≠ some (width, height) then
    { ws.clearCachePreservingPolicy with
      templates := fun _ => none, templateDimensions := some (width, height) }
  else ws

/-- The template of a piece: the one that is there, the shared one, or a new one. -/
def template (ws : TemplatedWorkspace) (catalog : GeometryCatalog) (piece : PieceKind) :
    Option (ReachabilityTemplate × TemplatedWorkspace) :=
  let ws := ws.changeDimensions catalog.width catalog.height
  match ws.templates piece with
  | some template => some (template, ws)
  | none =>
    match ws.sharedTemplates.filter fun shared =>
        shared.agrees catalog.width catalog.height ws.kickProfileId with
    | some shared => do
      let (template, shared) ← shared.template piece
      some (template, { ws with
        templates := Function.update ws.templates piece (some template)
        sharedTemplates := some shared })
    | none => do
      let template ← ReachabilityTemplate.compile catalog.width catalog.height piece ws.kickProfileId
      some (template, { ws with templates := Function.update ws.templates piece (some template) })

def prepareTemplate (ws : TemplatedWorkspace) (catalog : GeometryCatalog) (piece : PieceKind) :
    Option TemplatedWorkspace :=
  (ws.template catalog piece).map Prod.snd

/-- `lock_reachable_cached` with no conditioned source. -/
def lockReachableCached (ws : TemplatedWorkspace) (storage : Bool) (catalog : GeometryCatalog)
    (board : Board) (piece : PieceKind) (rotation : RotationState) (x y : Int) :
    Option (Bool × TemplatedWorkspace) :=
  match ws.cache.query storage board piece catalog.width rotation x y with
  | (.reachable, cache) => some (true, { ws with cache })
  | (.exhaustivelyUnreachable, cache) => some (false, { ws with cache })
  | (.search exhaustive admitted, cache) => do
    let template ← ws.templates piece
    let (reachable, locks, unreachableLocks, allLocks, scratch) ←
      ReachabilityWorkspace.searchLock template board catalog.width rotation x y exhaustive ws.scratch
    some (reachable,
      { ws with
        cache := cache.insert storage board piece locks unreachableLocks allLocks admitted
        scratch })

/-- `lock_reachable_instantiated`. -/
def lockReachableInstantiated (ws : TemplatedWorkspace) (storage : Bool) (catalog : GeometryCatalog)
    (board : Board) (piece : PieceKind) (realization : InstantiatedRealization) :
    Option (Bool × TemplatedWorkspace) :=
  if ReachabilityWorkspace.lockHarddropReachable catalog.width board realization then some (true, ws)
  else do
    let ws ← ws.prepareTemplate catalog piece
    ws.lockReachableCached storage catalog board piece realization.rotation realization.x
      realization.lockY

end TemplatedWorkspace

/-! ## What can be asked of it -/

inductive WorkspaceCall where
  | setSharedTemplates (templates : SharedReachabilityTemplates)
  | shared (piece : PieceKind)
  | configure (operationCount : Nat)
  | configureKickProfile (profileId : KickTableProfileId) (conditionedEnabled policyEnabled : Bool)
  | prepareTemplate (catalog : GeometryCatalog) (piece : PieceKind)
  | lockReachable (storage : Bool) (catalog : GeometryCatalog) (board : Board) (piece : PieceKind)
      (realization : InstantiatedRealization)

namespace WorkspaceCall

def run (ws : TemplatedWorkspace) : WorkspaceCall → Option TemplatedWorkspace
  | setSharedTemplates templates => some ((ws.setSharedTemplates templates).toOption.getD ws)
  | shared piece =>
    match ws.sharedTemplates with
    | none => some ws
    | some table => (table.template piece).map fun found => { ws with sharedTemplates := some found.2 }
  | configure operationCount => some (ws.configure operationCount)
  | configureKickProfile profileId conditionedEnabled policyEnabled =>
    some (ws.configureKickProfile profileId conditionedEnabled policyEnabled)
  | prepareTemplate catalog piece => ws.prepareTemplate catalog piece
  | lockReachable storage catalog board piece realization =>
    (ws.lockReachableInstantiated storage catalog board piece realization).map Prod.snd

/-- The profile after a call. -/
def profileAfter (profile : KickTableProfileId) : WorkspaceCall → KickTableProfileId
  | configureKickProfile profileId _ _ => profileId
  | _ => profile

end WorkspaceCall

end Clearra.Executor
