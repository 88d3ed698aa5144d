import Clearra.Proof.Executor.ReverseTables
import Clearra.Lib.Worklist

/-!
# The two searches agree

Both loops are `Lib.explore` with the queue's membership test replaced by generation marks. The
replacement is exact because a search number is fresh (`tracks_beginSearch`, the only place where
the wrap of the counter matters) and a push keeps marks and queue in step (`Tracks.push`). So the
forward search finds what is reachable along `forwardSucc`, the reverse search stops exactly when a
sky seed is reachable along `reverseSucc`; and the two adjacencies are each other's converse.
-/

namespace Clearra.Proof.Executor

open Clearra.Executor ReachabilityTemplate List Function
open Clearra.Executor.Arena
open Clearra.Rules

/-! ## Marks and queue -/

/-- The marks of the current search are its queue. -/
structure Tracks (n : Nat) (scratch : ReachabilityScratch) : Prop where
  size : n ≤ scratch.visitedGenerations.length
  marked : ∀ i, i < n →
    (scratch.visitedGenerations.getD i 0 = scratch.generation ↔ i ∈ scratch.queue)

theorem le_length_resized (scratch : ReachabilityScratch) (n : Nat) :
    n ≤ (scratch.resized n).length := by
  unfold ReachabilityScratch.resized
  split
  · rw [length_append, length_replicate]
    omega
  · omega

/-- A fresh search number marks nothing: no older mark is as large, and after a wrap there are no
    older marks. -/
theorem tracks_beginSearch (scratch : ReachabilityScratch) (n : Nat) :
    Tracks n (scratch.beginSearch n) ∧ (scratch.beginSearch n).queue = [] := by
  have hsize := le_length_resized scratch n
  unfold ReachabilityScratch.beginSearch
  split
  · refine ⟨⟨by simpa using hsize, fun i hi => ?_⟩, rfl⟩
    dsimp only
    rw [getD_eq_getElem?_getD, getElem?_replicate_of_lt (by omega)]
    exact ⟨fun h => absurd h (by decide), fun h => absurd h not_mem_nil⟩
  · rename_i hwrap
    refine ⟨⟨hsize, fun i hi => ?_⟩, rfl⟩
    dsimp only
    refine ⟨fun h => ?_, fun h => absurd h not_mem_nil⟩
    have hlt : i < (scratch.resized n).length := by omega
    rw [getD_eq_getElem _ _ hlt] at h
    have hle := ReachabilityScratch.mem_resized (getElem_mem hlt)
    rw [h, UInt16.le_iff_toNat_le, ReachabilityScratch.toNat_add_one hwrap] at hle
    omega

variable {scratch : ReachabilityScratch}

theorem Tracks.mark {n : Nat} (h : Tracks n scratch) {i : Nat} (hi : i < n) :
    Tracks n (scratch.mark i) where
  size := by
    simp only [ReachabilityScratch.mark, length_set]
    exact h.size
  marked := by
    intro k hk
    have hsize := h.size
    simp only [ReachabilityScratch.mark, mem_append, mem_singleton]
    rw [getD_eq_getElem?_getD, getElem?_set]
    by_cases he : i = k
    · subst he
      simp [show i < scratch.visitedGenerations.length by omega]
    · have he' : ¬k = i := fun e => he e.symm
      rw [if_neg he, ← getD_eq_getElem?_getD, h.marked k hk]
      simp [he']

variable {g : Arena}

/-- A push is the library's push, of the placeable ones only. -/
theorem Tracks.push (h : Tracks (stateCount g) scratch) (i : Nat) :
    Tracks (stateCount g) (pushIndexIfPlaceable (templateOf g) g.board scratch i) ∧
      (pushIndexIfPlaceable (templateOf g) g.board scratch i).queue =
        Lib.pushAll scratch.queue ([i].filter (placeable (templateOf g) g.board)) := by
  unfold pushIndexIfPlaceable
  cases hplace : placeable (templateOf g) g.board i with
  | false =>
    rw [if_pos rfl, filter_singleton, hplace]
    exact ⟨h, rfl⟩
  | true =>
    have hi := (placeable_iff_free.mp hplace).1
    rw [if_neg (by simp), filter_singleton, hplace]
    change _ ∧ _ = Lib.push scratch.queue i
    by_cases hmark : scratch.visitedGenerations.getD i 0 = scratch.generation
    · rw [if_neg (not_not.mpr hmark), Lib.push, if_pos ((h.marked i hi).mp hmark)]
      exact ⟨h, rfl⟩
    · rw [if_pos hmark, Lib.push, if_neg fun hmem => hmark ((h.marked i hi).mpr hmem)]
      exact ⟨h.mark hi, rfl⟩

theorem Tracks.pushList : ∀ (is : List Nat) {scratch : ReachabilityScratch},
    Tracks (stateCount g) scratch →
    Tracks (stateCount g) (is.foldl (pushIndexIfPlaceable (templateOf g) g.board) scratch) ∧
      (is.foldl (pushIndexIfPlaceable (templateOf g) g.board) scratch).queue =
        Lib.pushAll scratch.queue (is.filter (placeable (templateOf g) g.board)) := by
  intro is
  induction is with
  | nil => intro scratch h; exact ⟨h, rfl⟩
  | cons i rest ih =>
    intro scratch h
    obtain ⟨h1, hq1⟩ := h.push i
    obtain ⟨h2, hq2⟩ := ih h1
    refine ⟨h2, ?_⟩
    rw [foldl_cons, hq2, hq1]
    rw [Lib.pushAll, Lib.pushAll, ← foldl_append, ← filter_append]
    rfl

theorem pushForward_eq (t : ReachabilityTemplate) (board : Board) (scratch : ReachabilityScratch)
    (i : Nat) : pushForward t board scratch i = (((translationRow t.translationTargets i).filter
          (· ≠ invalidStateIndex)) ++
        (List.range (if t.allow180 then 3 else 2)).filterMap (firstSuccessfulKick t board i)).foldl
        (pushIndexIfPlaceable t board) scratch := by
  rw [foldl_append, foldl_filter, foldl_filterMap, pushForward]
  simp only [decide_eq_true_eq]
  congr 1
  funext scratch slot
  cases firstSuccessfulKick t board i slot <;> rfl

theorem pushReverse_eq (t : ReachabilityTemplate) (board : Board) (scratch : ReachabilityScratch)
    (j : Nat) : pushReverse t board scratch j =
      (((translationRow t.reverseTranslationSources j).filter (· ≠ invalidStateIndex)) ++
        ((t.reverseRotationSources.row j).filter (reverseRotationIsFirstSuccess t board)).map
          ReverseRotationSource.source).foldl (pushIndexIfPlaceable t board) scratch := by
  rw [foldl_append, foldl_filter, foldl_map, foldl_filter, pushReverse]
  simp only [decide_eq_true_eq, ne_eq, ite_not]

theorem Tracks.pushForward (h : Tracks (stateCount g) scratch) (i : Nat) :
    Tracks (stateCount g) (pushForward (templateOf g) g.board scratch i) ∧
      (Clearra.Executor.pushForward (templateOf g) g.board scratch i).queue =
        Lib.pushAll scratch.queue (forwardSucc (templateOf g) g.board i) := by
  rw [pushForward_eq]
  exact h.pushList _

theorem Tracks.pushReverse (h : Tracks (stateCount g) scratch) (j : Nat) :
    Tracks (stateCount g) (pushReverse (templateOf g) g.board scratch j) ∧
      (Clearra.Executor.pushReverse (templateOf g) g.board scratch j).queue =
        Lib.pushAll scratch.queue (reverseSucc (templateOf g) g.board j) := by
  rw [pushReverse_eq]
  exact h.pushList _

/-! ## The forward loop -/

/-- The loop without a request is the library's loop, and what it has recorded is what the visited
    part of the queue records. -/
theorem searchLoop_eq : ∀ (fuel cursor : Nat) (scratch : ReachabilityScratch)
    (locks : ReachableLocks), Tracks (stateCount g) scratch →
    locks = (scratch.queue.take cursor).foldl (recordLock (templateOf g) g.board) .empty →
    ∀ found stopped, Lib.explore (forwardSucc (templateOf g) g.board) (fun _ => false) fuel cursor
      scratch.queue = some (found, stopped) →
    ∃ visited after, searchLoop (templateOf g) g.board none fuel cursor scratch locks =
      some (⟨found.foldl (recordLock (templateOf g) g.board) .empty, visited, true⟩, after) := by
  intro fuel cursor scratch locks htracks hlocks found stopped hrun
  generalize hqueue : scratch.queue = queue at hrun
  fun_induction Lib.explore (forwardSucc (templateOf g) g.board) (fun _ => false) fuel cursor queue
    generalizing scratch locks with
  | case1 fuel cursor queue hget =>
    cases hrun
    rw [hqueue, take_of_length_le (getElem?_eq_none_iff.mp hget)] at hlocks
    refine ⟨cursor, scratch, ?_⟩
    rw [searchLoop, hqueue, hget, hlocks]
  | case2 _ _ _ _ _ hstop => cases hstop
  | case3 => cases hrun
  | case4 cursor queue i hget _ fuel ih =>
    obtain ⟨htracks', hnext⟩ := htracks.pushForward i
    subst hqueue
    have hlt : cursor < scratch.queue.length := (List.getElem?_eq_some_iff.mp hget).1
    -- the visited part grows by the pose just visited
    have htake : (pushForward (templateOf g) g.board scratch i).queue.take (cursor + 1) =
        scratch.queue.take cursor ++ [i] := by
      obtain ⟨rest, hrest⟩ := Lib.prefix_pushAll (forwardSucc (templateOf g) g.board i)
        scratch.queue
      rw [hnext, ← hrest, take_append_of_le_length (by omega), take_add_one, hget]
      rfl
    have hlocks' : recordLock (templateOf g) g.board locks i =
        ((pushForward (templateOf g) g.board scratch i).queue.take (cursor + 1)).foldl
          (recordLock (templateOf g) g.board) .empty := by
      rw [htake, foldl_append, ← hlocks]
      rfl
    obtain ⟨visited, after, hloop⟩ := ih _ _ htracks' hlocks' hnext hrun
    refine ⟨visited, after, ?_⟩
    rw [searchLoop, hget]
    simp only [desiredReached, Bool.false_eq_true, and_false, if_false]
    exact hloop

/-! ## Recorded locks -/

variable {r : RotationState} {x y : Int}

theorem contains_iff {locks : ReachableLocks} {width : Nat} :
    locks.contains width r x y = true ↔ 0 ≤ x ∧ 0 ≤ y ∧ x < width ∧
      (locks.anchors r).getLsbD (y.toNat * width + x.toNat) = true := by
  unfold ReachableLocks.contains
  split
  · rename_i h
    exact ⟨by simp, fun h' => by omega⟩
  · rename_i h
    rw [Bool.and_eq_true, decide_eq_true_eq, decide_eq_true_eq, bit,
      show (0 : Board) = 0#64 from rfl, Lib.and_one_shiftLeft_ne_zero_iff]
    constructor
    · rintro ⟨-, hbit⟩
      exact ⟨by omega, by omega, by omega, hbit⟩
    · rintro ⟨-, -, -, hbit⟩
      exact ⟨BitVec.lt_of_getLsbD hbit, hbit⟩

theorem anchor_inj {width : Nat} {x y x' y' : Int} (hx : 0 ≤ x ∧ x < width)
    (hx' : 0 ≤ x' ∧ x' < width) (hy : 0 ≤ y) (hy' : 0 ≤ y')
    (h : y.toNat * width + x.toNat = y'.toNat * width + x'.toNat) : x = x' ∧ y = y' := by
  have hw : 0 < width := by omega
  have hxw : x.toNat < width := by omega
  have hxw' : x'.toNat < width := by omega
  have hdiv := congrArg (· / width) h
  have hmod := congrArg (· % width) h
  simp only [Nat.mul_comm _ width, Nat.mul_add_div hw, Nat.mul_add_mod, Nat.div_eq_of_lt hxw,
    Nat.div_eq_of_lt hxw', Nat.mod_eq_of_lt hxw, Nat.mod_eq_of_lt hxw'] at hdiv hmod
  omega

theorem anchor_lt {width height : Nat} (hcells : width * height ≤ 64) (hx : 0 ≤ x ∧ x < width)
    (hy : 0 ≤ y ∧ y < height) : y.toNat * width + x.toNat < 64 := by
  have hrow : (y.toNat + 1) * width ≤ height * width := Nat.mul_le_mul_right _ (by omega)
  rw [Nat.add_mul, Nat.mul_comm height width] at hrow
  omega

theorem contains_recordLock (hs : Small g) (hcells : g.width * g.height ≤ 64)
    {locks : ReachableLocks} {i : Nat} (hi : placeable (templateOf g) g.board i = true) :
    (recordLock (templateOf g) g.board locks i).contains g.width r x y = true ↔
      locks.contains g.width r x y = true ∨
        (poseOf g i = ⟨r, x, y⟩ ∧ y < g.height ∧ g.Grounded ⟨r, x, y⟩) := by
  obtain ⟨hin, hfree⟩ := placeable_iff_free.mp hi
  have hground := groundedIndex_iff hs hin hfree.2.1
  have hx := And.intro hfree.2.1.x_nonneg hfree.2.1.x_lt
  have hy := hfree.2.1.y_nonneg
  unfold recordLock
  simp only [templateOf_width, templateOf_height, templateOf_ceiling, ← show poseOf g i = stateFromIndex g.width (ceilingOf g) i from rfl]
  by_cases hrec : (poseOf g i).y < g.height ∧ groundedIndex (templateOf g) g.board i = true
  · rw [if_pos hrec, contains_iff, contains_iff]
    simp only [ReachableLocks.mark]
    by_cases hr : r = (poseOf g i).rotation
    · subst hr
      rw [update_self, BitVec.getLsbD_or, Bool.or_eq_true, bit,
        Lib.getLsbD_one_shiftLeft, decide_eq_true_eq]
      constructor
      · rintro ⟨h1, h2, h3, h | ⟨h, -⟩⟩
        · exact .inl ⟨h1, h2, h3, h⟩
        · obtain ⟨rfl, rfl⟩ := anchor_inj ⟨h1, h3⟩ hx h2 hy h
          exact .inr ⟨rfl, hrec.1, hground.mp hrec.2⟩
      · rintro (⟨h1, h2, h3, h⟩ | ⟨hpose, hlow, -⟩)
        · exact ⟨h1, h2, h3, Or.inl h⟩
        · have hx' : x = (poseOf g i).x := by rw [hpose]
          have hy' : y = (poseOf g i).y := by rw [hpose]
          subst hx' hy'
          exact ⟨hx.1, hy, hx.2, Or.inr ⟨rfl, anchor_lt hcells hx ⟨hy, hlow⟩⟩⟩
    · rw [update_of_ne hr]
      refine ⟨Or.inl, ?_⟩
      rintro (h | ⟨hpose, -⟩)
      · exact h
      · exact absurd (by rw [hpose]) hr
  · rw [if_neg hrec]
    refine ⟨Or.inl, ?_⟩
    rintro (h | ⟨hpose, hlow, hg⟩)
    · exact h
    · rw [← hpose] at hg
      have hy' : (poseOf g i).y = y := by rw [hpose]
      exact absurd ⟨hy' ▸ hlow, hground.mpr hg⟩ hrec

theorem contains_foldl_recordLock (hs : Small g) (hcells : g.width * g.height ≤ 64) :
    ∀ (found : List Nat), (∀ i ∈ found, placeable (templateOf g) g.board i = true) →
    ((found.foldl (recordLock (templateOf g) g.board) .empty).contains g.width r x y = true ↔
      ∃ i ∈ found, poseOf g i = ⟨r, x, y⟩ ∧ y < g.height ∧ g.Grounded ⟨r, x, y⟩) := by
  intro found
  induction found using List.reverseRecOn with
  | nil =>
    intro _
    rw [foldl_nil, contains_iff]
    simp [ReachableLocks.empty]
  | append_singleton found i ih =>
    intro hplace
    rw [foldl_append, foldl_cons, foldl_nil,
      contains_recordLock hs hcells (hplace i (by simp)), ih fun k hk => hplace k (by simp [hk])]
    simp only [mem_append, mem_singleton, or_and_right, exists_or, exists_eq_left]

/-! ## Reachability by index and by pose -/

theorem reaches_placeable {i : Nat} (h : Lib.Reaches (forwardSucc (templateOf g) g.board)
      ((templateOf g).skySeeds.filter (placeable (templateOf g) g.board)) i) :
    placeable (templateOf g) g.board i = true := by
  obtain ⟨s, hseed, hrun⟩ := h
  cases hrun with
  | refl => exact (mem_filter.mp hseed).2
  | tail _ hstep => exact (mem_filter.mp hstep).2

/-- The index graph and the game reach the same poses. -/
theorem reaches_forward_iff (hs : Small g) {i : Nat} (hi : i < stateCount g) :
    Lib.Reaches (forwardSucc (templateOf g) g.board)
        ((templateOf g).skySeeds.filter (placeable (templateOf g) g.board)) i ↔
      g.Reachable (some (ceilingOf g)) (poseOf g i) := by
  constructor
  · rintro ⟨s, hseed, hrun⟩
    rw [mem_filter, mem_skySeeds hs] at hseed
    obtain ⟨⟨hsn, hsky⟩, -⟩ := hseed
    refine ⟨poseOf g s, hsky, ?_⟩
    -- along the run every index stays in the table
    have hind : i < stateCount g ∧
        Relation.ReflTransGen (g.Move (some (ceilingOf g))) (poseOf g s) (poseOf g i) := by
      clear hi
      induction hrun with
      | refl => exact ⟨hsn, .refl⟩
      | tail _ hstep ih =>
        obtain ⟨hlt, hmove⟩ := (mem_forwardSucc hs ih.1).mp hstep
        exact ⟨hlt, ih.2.tail hmove⟩
    exact hind.2
  · rintro ⟨seed, hsky, hrun⟩
    obtain ⟨s, hidx⟩ := exists_index hsky.1 hsky.2.1
    obtain ⟨rfl, hsn⟩ := poseOf_of_stateIndex hidx
    generalize hpose : poseOf g i = pose at hrun
    induction hrun generalizing i with
    | refl =>
      obtain rfl := poseOf_injective hi hsn hpose
      refine .seed (mem_filter.mpr ⟨(mem_skySeeds hs).mpr ⟨hi, hsky⟩, ?_⟩)
      exact placeable_iff_free.mpr ⟨hi, hsky.free⟩
    | @tail mid pose' hmid hstep ih =>
      have hfree : g.Free (some (ceilingOf g)) mid := Reachable.free ⟨_, hsky, hmid⟩
      obtain ⟨k, hk⟩ := exists_index hfree.1 hfree.2.1
      obtain ⟨rfl, hkn⟩ := poseOf_of_stateIndex hk
      refine (ih hkn rfl).tail ((mem_forwardSucc hs hkn).mpr ⟨hi, ?_⟩)
      rw [hpose]
      exact hstep

/-! ## The reverse loop -/

theorem reverseLoop_eq : ∀ (fuel cursor : Nat) (scratch : ReachabilityScratch),
    Tracks (stateCount g) scratch →
    ∀ found stopped, Lib.explore (reverseSucc (templateOf g) g.board)
      (isExit (templateOf g) none) fuel cursor scratch.queue = some (found, stopped) →
    ∃ visited after, reverseLoop (templateOf g) g.board none fuel cursor scratch =
      some (⟨stopped, visited⟩, after) := by
  intro fuel cursor scratch htracks found stopped hrun
  generalize hqueue : scratch.queue = queue at hrun
  fun_induction Lib.explore (reverseSucc (templateOf g) g.board) (isExit (templateOf g) none) fuel cursor
    queue generalizing scratch with
  | case1 fuel cursor queue hget =>
    cases hrun
    exact ⟨cursor, scratch, by rw [reverseLoop, hqueue, hget]⟩
  | case2 fuel cursor queue i hget hexit =>
    cases hrun
    refine ⟨cursor + 1, scratch, ?_⟩
    rw [reverseLoop, hqueue, hget]
    exact if_pos hexit
  | case3 => cases hrun
  | case4 cursor queue i hget hexit fuel ih =>
    obtain ⟨htracks', hnext⟩ := htracks.pushReverse i
    subst hqueue
    obtain ⟨visited, after, hloop⟩ := ih _ htracks' hnext hrun
    refine ⟨visited, after, ?_⟩
    rw [reverseLoop, hget]
    exact (if_neg hexit).trans hloop

/-- A backward run from a free pose is a forward run to it. -/
theorem reverse_run_iff (hs : Small g) {i j : Nat} (hj : placeable (templateOf g) g.board j = true) :
    Relation.ReflTransGen (fun a b => b ∈ reverseSucc (templateOf g) g.board a) j i ↔
      placeable (templateOf g) g.board i = true ∧
        Relation.ReflTransGen (fun a b => b ∈ forwardSucc (templateOf g) g.board a) i j := by
  constructor
  · intro hrun
    induction hrun with
    | refl => exact ⟨hj, .refl⟩
    | tail _ hstep ih =>
      obtain ⟨hn, hfree⟩ := placeable_iff_free.mp ih.1
      obtain ⟨hplace, hfwd⟩ := (mem_reverseSucc hs hn hfree).mp hstep
      exact ⟨hplace, ih.2.head hfwd⟩
  · rintro ⟨hi, hrun⟩
    induction hrun using Relation.ReflTransGen.head_induction_on with
    | refl => exact .refl
    | head hstep _ ih =>
      have hmid : placeable (templateOf g) g.board _ = true := (mem_filter.mp hstep).2
      obtain ⟨hn, hfree⟩ := placeable_iff_free.mp hmid
      exact (ih hmid).tail ((mem_reverseSucc hs hn hfree).mpr ⟨hi, hstep⟩)

/-- The reverse search meets the sky exactly for the poses the game reaches. -/
theorem exists_exit_iff (hs : Small g) {j : Nat} (hj : placeable (templateOf g) g.board j = true) :
    (∃ i, Lib.Reaches (reverseSucc (templateOf g) g.board) [j] i ∧
        isExit (templateOf g) none i = true) ↔
      g.Reachable (some (ceilingOf g)) (poseOf g j) := by
  have hjn := (placeable_iff_free.mp hj).1
  rw [← reaches_forward_iff hs hjn]
  constructor
  · rintro ⟨i, ⟨s, hseed, hrun⟩, hexit⟩
    rw [mem_singleton] at hseed
    subst hseed
    obtain ⟨hi, hfwd⟩ := (reverse_run_iff hs hj).mp hrun
    have hin := (placeable_iff_free.mp hi).1
    have hsky := (isSkySeed_iff hs hin).mp (by simpa [isExit] using hexit)
    exact ⟨i, mem_filter.mpr ⟨(mem_skySeeds hs).mpr ⟨hin, hsky⟩, hi⟩, hfwd⟩
  · rintro ⟨i, hseed, hfwd⟩
    rw [mem_filter, mem_skySeeds hs] at hseed
    obtain ⟨⟨hin, hsky⟩, hi⟩ := hseed
    refine ⟨i, ⟨j, mem_singleton_self j, (reverse_run_iff hs hj).mpr ⟨hi, hfwd⟩⟩, ?_⟩
    simp [isExit, (isSkySeed_iff hs hin).mpr hsky]

/-! ## The searches -/

/-- The forward search ends, exhaustively, with the grounded reachable poses. -/
theorem searchReachableLocks_spec (hs : Small g) (hcells : g.width * g.height ≤ 64)
    (scratch : ReachabilityScratch) :
    ∃ forward after, searchReachableLocks (templateOf g) g.board scratch none =
        some (forward, after) ∧ forward.exhaustive = true ∧
      ∀ (r : RotationState) (x y : Int), y < g.height → (forward.locks.contains g.width r x y = true ↔
        g.Grounded ⟨r, x, y⟩ ∧ g.Reachable (some (ceilingOf g)) ⟨r, x, y⟩) := by
  obtain ⟨htracks, hempty⟩ := tracks_beginSearch scratch (stateCount g)
  obtain ⟨htracks, hqueue⟩ := htracks.pushList (templateOf g).skySeeds
  rw [hempty] at hqueue
  obtain ⟨found, stopped, hrun, hstop, hfound⟩ := Lib.explore_spec
    (forwardSucc (templateOf g) g.board) (fun _ => false)
    ((templateOf g).skySeeds.filter (placeable (templateOf g) g.board))
    (fun i hi => mem_range.mpr (placeable_iff_free.mp (reaches_placeable hi)).1)
    (le_of_eq (length_range (n := stateCount g)))
  have hunstopped : stopped = false := by
    cases stopped with
    | false => rfl
    | true =>
      obtain ⟨a, -, ha⟩ := hstop.mp rfl
      simp at ha
  obtain ⟨-, hmem⟩ := hfound hunstopped
  rw [← hqueue] at hrun
  obtain ⟨visited, after, hloop⟩ := searchLoop_eq _ _ _ .empty htracks rfl _ _ hrun
  refine ⟨_, after, hloop, rfl, fun r x y hy => ?_⟩
  rw [contains_foldl_recordLock hs hcells found fun i hi => reaches_placeable ((hmem i).mp hi)]
  constructor
  · rintro ⟨i, hi, hpose, -, hground⟩
    have hin := (placeable_iff_free.mp (reaches_placeable ((hmem i).mp hi))).1
    refine ⟨hground, ?_⟩
    rw [← hpose]
    exact (reaches_forward_iff hs hin).mp ((hmem i).mp hi)
  · rintro ⟨hground, hreach⟩
    obtain ⟨i, hidx⟩ := exists_index hreach.free.1 hreach.free.2.1
    obtain ⟨hpose, hin⟩ := poseOf_of_stateIndex hidx
    refine ⟨i, (hmem i).mpr ((reaches_forward_iff hs hin).mpr ?_), hpose, hy, hground⟩
    rw [hpose]
    exact hreach

/-- The reverse search ends, with whether its pose is grounded and reachable. -/
theorem reverseLockReachable_spec (hs : Small g) (r : RotationState) (x y : Int)
    (scratch : ReachabilityScratch) :
    ∃ reverse after, reverseLockReachable (templateOf g) g.board r x y scratch =
        some (reverse, after) ∧ (reverse.reachable = true ↔
        g.Grounded ⟨r, x, y⟩ ∧ g.Reachable (some (ceilingOf g)) ⟨r, x, y⟩) := by
  unfold reverseLockReachable
  rw [templateOf_width, templateOf_ceiling]
  cases hidx : stateIndex g.width (ceilingOf g) ⟨r, x, y⟩ with
  | none =>
    refine ⟨_, _, rfl, by simp, fun ⟨_, hreach⟩ => ?_⟩
    obtain ⟨i, hi⟩ := exists_index hreach.free.1 hreach.free.2.1
    rw [hidx] at hi
    simp at hi
  | some j =>
    obtain ⟨hpose, hjn⟩ := poseOf_of_stateIndex hidx
    dsimp only
    split
    · -- rejected before the search: invalid, blocked or hanging in the air
      rename_i hreject
      refine ⟨_, _, rfl, by simp, fun ⟨hground, hreach⟩ => ?_⟩
      have hfree := hreach.free
      rw [← hpose] at hfree hground
      rcases hreject with h | h | h
      · exact absurd h ((mask_ne_invalid_iff hjn).mpr hfree.2.1)
      · exact absurd ((and_mask_eq_zero_iff hjn hfree.2.1).mpr hfree.2.2) h
      · rw [(groundedIndex_iff hs hjn hfree.2.1).mpr hground] at h
        simp at h
    · rename_i haccept
      rw [not_or, not_or, not_not, Bool.not_eq_false] at haccept
      obtain ⟨hvalid, hblocked, hground⟩ := haccept
      have hfit := (mask_ne_invalid_iff hjn).mp hvalid
      have hplace : placeable (templateOf g) g.board j = true := by
        rw [placeable, Bool.and_eq_true, decide_eq_true_eq, decide_eq_true_eq]
        exact ⟨hvalid, hblocked⟩
      rw [groundedIndex_iff hs hjn hfit, hpose] at hground
      -- the search starts from the one marked pose
      obtain ⟨htracks, hempty⟩ := tracks_beginSearch scratch (stateCount g)
      have htracks := htracks.mark hjn
      have hqueue : ((scratch.beginSearch (stateCount g)).mark j).queue = Lib.pushAll [] [j] := by
        simp [ReachabilityScratch.mark, hempty, Lib.pushAll, Lib.push]
      obtain ⟨found, stopped, hrun, hstop, -⟩ := Lib.explore_spec
        (reverseSucc (templateOf g) g.board) (isExit (templateOf g) none) [j]
        (fun i hi => by
          obtain ⟨s, hseed, hrun⟩ := hi
          rw [mem_singleton] at hseed
          subst hseed
          have hi := ((reverse_run_iff hs hplace).mp hrun).1
          exact mem_range.mpr (placeable_iff_free.mp hi).1)
        (le_of_eq (length_range (n := stateCount g)))
      rw [← hqueue] at hrun
      obtain ⟨visited, after, hloop⟩ := reverseLoop_eq _ _ _ htracks _ _ hrun
      refine ⟨⟨stopped, visited⟩, after, ?_, ?_⟩
      · rw [reverseLockReachableLarge, length_stateMasks]
        exact hloop
      · rw [hstop, exists_exit_iff hs hplace, hpose]
        exact ⟨fun h => ⟨hground, h⟩, fun h => h.2⟩

/-! ## Built-in profiles are small -/

/-- No built-in kick reaches more than five rows down. -/
theorem maximumDownward_le {profile : KickTableProfile} (h : profile ∈ builtinKickProfiles)
    (piece : PieceKind) (allow180 : Bool) : maximumDownward piece allow180 profile ≤ 5 := by
  have hall : ∀ profile ∈ builtinKickProfiles, ∀ piece ∈ PieceKind.standardTetrominoes,
      ∀ allow180 ∈ [true, false], maximumDownward piece allow180 profile ≤ 5 := by
    decide +kernel
  exact hall profile h piece (PieceKind.mem_standardTetrominoes piece) allow180
    (by cases allow180 <;> simp)

theorem length_offsets_le {profile : KickTableProfile} (h : profile ∈ builtinKickProfiles)
    {transition : KickTransition} {offsets : List KickOffset}
    (hseq : profile.sequenceFor transition = some offsets) : offsets.length ≤ 256 := by
  have hall : ∀ profile ∈ builtinKickProfiles, ∀ entry ∈ profile.entries,
      entry.offsets.length ≤ 256 := by
    decide +kernel
  rw [KickTableProfile.sequenceFor, Option.map_eq_some_iff] at hseq
  obtain ⟨entry, hfind, rfl⟩ := hseq
  exact hall profile h entry (mem_of_find?_eq_some hfind)

/-- A width is a `u8` in the source, which bounds the states also where the board has no rows. -/
theorem Small.of_builtin (hprofile : g.profile ∈ builtinKickProfiles) (hwidth : g.width ≤ 255)
    (hcells : g.width * g.height ≤ 64) : Small g where
  states := by
    have hdown := maximumDownward_le hprofile g.piece g.allow180
    have hceil : ceilingOf g + 1 ≤ g.height + 6 := by
      rw [ceilingOf, sourceCeiling]
      omega
    have h1 : (ceilingOf g + 1) * g.width ≤ (g.height + 6) * g.width :=
      Nat.mul_le_mul_right _ hceil
    have h2 : (g.height + 6) * g.width = g.width * g.height + 6 * g.width := by ring
    rw [stateCount, Nat.mul_assoc]
    omega
  kicks := fun _ _ _ hseq => length_offsets_le hprofile hseq

theorem Small.of_cells {profileId : KickTableProfileId}
    (hprofile : builtinKickProfile profileId = some g.profile) (hheight : 0 < g.height)
    (hcells : g.width * g.height ≤ 64) : Small g :=
  have hwidth := (Nat.le_mul_of_pos_right g.width hheight).trans hcells
  .of_builtin (mem_builtinKickProfiles hprofile) (hwidth.trans (by decide)) hcells

/-! ## Forward and reverse coincide -/

/-- **Reverse and forward reachability coincide.** For a template compiled for any board of at most
    64 cells, any piece and any built-in profile, on any board contents and whatever the reused
    scratches hold: both searches end, the reverse search answers `true` for exactly the locks the
    forward search records, and both mean that the pose is grounded and reachable from the sky by
    translations and first-success rotations. -/
theorem reverseLockReachable_iff_forward {width height : Nat} (hwidth : width ≤ 255)
    (hcells : width * height ≤ 64) (piece : PieceKind) {profileId : KickTableProfileId}
    {profile : KickTableProfile} (hprofile : builtinKickProfile profileId = some profile)
    {template : ReachabilityTemplate}
    (htemplate : compile width height piece profileId = some template)
    (board : Board) (scratch scratch' : ReachabilityScratch) :
    ∃ forward after, searchReachableLocks template board scratch none = some (forward, after) ∧
      ∀ (rotation : RotationState) (x y : Int), y < height →
        ∃ reverse after',
          reverseLockReachable template board rotation x y scratch' = some (reverse, after') ∧
          (reverse.reachable = true ↔ forward.locks.contains width rotation x y = true) ∧
          (reverse.reachable = true ↔
            Grounded ⟨width, height, piece, profile.supports180, profile, board⟩
              ⟨rotation, x, y⟩ ∧
            Reachable ⟨width, height, piece, profile.supports180, profile, board⟩
              (some template.ceiling) ⟨rotation, x, y⟩) := by
  let g : Arena := ⟨width, height, piece, profile.supports180, profile, board⟩
  have hs : Small g := .of_builtin (mem_builtinKickProfiles hprofile) hwidth hcells
  have htemplate' : template = templateOf g := by
    rw [compile, hprofile] at htemplate
    exact (Option.some.inj htemplate).symm
  subst htemplate'
  obtain ⟨forward, after, hforward, -, hlocks⟩ := searchReachableLocks_spec hs hcells scratch
  refine ⟨forward, after, hforward, fun rotation x y hy => ?_⟩
  obtain ⟨reverse, after', hreverse, hiff⟩ := reverseLockReachable_spec hs rotation x y scratch'
  exact ⟨reverse, after', hreverse, hiff.trans (hlocks rotation x y hy).symm, hiff⟩

/-- A flat `T` under an overhang at the left wall, where only a kick brings it. The forward search has
    the scratch that a search of the empty board left. -/
theorem reverseLockReachable_iff_forward_T : ∃ template empty spent forward after reverse after',
    compile 3 3 .T .srs90 = some template ∧
      searchReachableLocks template 0 .empty none = some (empty, spent) ∧
      searchReachableLocks template 0x48 spent none = some (forward, after) ∧
      reverseLockReachable template 0x48 .zero 0 0 .empty = some (reverse, after') ∧
      reverse.reachable = true ∧ forward.locks.contains 3 .zero 0 0 = true := by
  obtain ⟨template, htemplate⟩ : ∃ template, compile 3 3 .T .srs90 = some template := ⟨_, rfl⟩
  have hsearch := reverseLockReachable_iff_forward (by decide) (by decide) .T
    (show builtinKickProfile .srs90 = some _ from rfl) htemplate
  obtain ⟨empty, spent, hempty, -⟩ := hsearch 0 .empty .empty
  obtain ⟨forward, after, hforward, hposes⟩ := hsearch 0x48 spent .empty
  obtain ⟨reverse, after', hreverse, hiff, -⟩ := hposes .zero 0 0 (by decide)
  have hfound : ((compile 3 3 .T .srs90).bind fun template =>
      (reverseLockReachable template 0x48 .zero 0 0 .empty).map (·.1.reachable)) = some true := by
    decide +kernel
  rw [htemplate, Option.bind_some, hreverse] at hfound
  have htrue := Option.some.inj hfound
  exact ⟨_, _, _, _, _, _, _, htemplate, hempty, hforward, hreverse, htrue, hiff.mp htrue⟩

end Clearra.Proof.Executor
