import Clearra.Cover.ExactAtMost

/-!
# Cubes partition the covers

A cover inside a cube contains a supporter of the pivot, and belongs to the child that forces the
first one it contains. So a split changes no cover's number of owners, whatever the pivot and the
order of its supporters; the frontier starts with one cube that owns everything.
-/

namespace Clearra.Proof.Cover

open Clearra.Cover List
open ExactAtMostCoordinator
open Lib (Meets)

/-! ## What is counted -/

/-- A cover of `required` with at most `limit` of the rows. -/
structure Admits (query : ExactAtMostQuery) (selected : Finset Nat) : Prop where
  rows : ∀ row ∈ selected, row < query.rows.length
  atMost : selected.card ≤ query.limit
  covers : ∀ pattern ∈ query.required, ∃ row ∈ selected, pattern ∈ query.row row

/-- How many of the cubes a set of rows lies in. -/
def owners (tasks : List ExactAtMostTask) (selected : Finset Nat) : Nat :=
  tasks.countP (·.owns selected)

/-- The shape of a task that is handed out. -/
structure Emitted (query : ExactAtMostQuery) (task : ExactAtMostTask) : Prop where
  forced_sorted : task.forcedRows.Pairwise (· < ·)
  excluded_sorted : task.excludedRows.Pairwise (· < ·)
  apart : ∀ row ∈ task.forcedRows, row ∉ task.excludedRows
  atMost : task.forcedRows.length ≤ query.limit

variable {host : Host} {query : ExactAtMostQuery} {parent child : ExactAtMostTask}
  {selected : Finset Nat} {before rows : List Nat} {tasks children : List ExactAtMostTask}

theorem owns_iff {task : ExactAtMostTask} : task.owns selected ↔
    (∀ row ∈ task.forcedRows, row ∈ selected) ∧ ∀ row ∈ task.excludedRows, row ∉ selected := by
  simp [ExactAtMostTask.owns]

theorem emitted_of_le {task : ExactAtMostTask} (h : task.forcedRows.length ≤ query.limit) :
    Emitted query task :=
  ⟨task.forced_sorted, task.excluded_sorted, task.apart, h⟩

/-! ## The host only ends calls -/

theorem poll_meets : Meets (fun _ => True) host.poll fun _ => True := by
  intro n
  cases h : host n with
  | error e => simp [Host.poll, h, Lib.Yields, bind, Except.bind]
  | ok u => simp [Host.poll, h, Lib.Yields, Lib.Grown, bind, Except.bind, pure, Except.pure]

theorem poll_seq {α : Type} {next : Unit → Hosted α} {post : α → Prop}
    (h : Meets (fun _ => True) (next ()) post) :
    Meets (fun _ => True) (host.poll >>= next) post :=
  poll_meets.bind fun _ _ => h

theorem lift_seq {α β : Type} {x : Except ExactAtMostParallelError α} {next : α → Hosted β}
    {post : β → Prop} (h : ∀ a, x = .ok a → Meets (fun _ => True) (next a) post) :
    Meets (fun _ => True) ((x : Hosted α) >>= next) post := by
  intro n
  cases x with
  | error e => trivial
  | ok a => exact h a rfl n

/-! ## The pivot -/

/-- The supporters of a required pattern that no forced row covers. -/
def IsPivot (query : ExactAtMostQuery) (parent : ExactAtMostTask) (rows : List Nat) : Prop :=
  ∃ pattern ∈ query.required, (∀ row ∈ parent.forcedRows, pattern ∉ query.row row) ∧
    rows = query.supportersOf parent pattern

theorem supportersLoop_meets {patterns : List Nat} {best : Option (List Nat)}
    (hrequired : ∀ pattern ∈ patterns, pattern ∈ query.required)
    (hbest : ∀ rows ∈ best, IsPivot query parent rows) :
    Meets (fun _ => True) (supportersLoop host query parent patterns best)
      fun found => ∀ rows ∈ found, IsPivot query parent rows := by
  induction patterns generalizing best with
  | nil => exact .ret hbest
  | cons pattern patterns ih =>
    have hrest : ∀ p ∈ patterns, p ∈ query.required :=
      fun p hp => hrequired p (mem_cons_of_mem _ hp)
    apply poll_seq
    apply Meets.ite
    · intro _
      exact ih hrest hbest
    · intro huncovered
      push Not at huncovered
      have hnext : ∀ rows ∈ some (query.supportersOf parent pattern), IsPivot query parent rows := by
        intro rows hrows
        cases hrows
        exact ⟨pattern, hrequired pattern mem_cons_self, huncovered, rfl⟩
      apply Meets.ite
      · intro _
        exact ih hrest hbest
      · intro _
        apply poll_seq
        apply Meets.ite
        · intro _
          exact .ret hnext
        · intro _
          exact ih hrest hnext

theorem requiredPatterns_sub : ∀ pattern ∈ query.requiredPatterns, pattern ∈ query.required := by
  intro pattern h
  simpa using (mem_filter.mp h).2

theorem supporters_meets : Meets (fun _ => True) (supporters host query parent)
    fun found => ∀ rows ∈ found, IsPivot query parent rows := by
  apply supportersLoop_meets requiredPatterns_sub
  intro rows h
  cases h

theorem IsPivot.hit (h : IsPivot query parent rows) (hcover : Admits query selected)
    (howns : parent.owns selected) : ∃ row ∈ rows, row ∈ selected := by
  obtain ⟨pattern, hpattern, -, rfl⟩ := h
  obtain ⟨row, hrow, hmem⟩ := hcover.covers pattern hpattern
  refine ⟨row, ?_, hrow⟩
  have hexcluded : row ∉ parent.excludedRows := fun h => (owns_iff.mp howns).2 row h hrow
  simp [ExactAtMostQuery.supportersOf, hcover.rows row hrow, hmem, hexcluded]

/-! ## The children -/

/-- What one child adds to its parent's descriptor. -/
structure Extends (parent : ExactAtMostTask) (before : List Nat) (row : Nat)
    (child : ExactAtMostTask) : Prop where
  forced : ∀ r, r ∈ child.forcedRows ↔ r ∈ parent.forcedRows ∨ r = row
  excluded : ∀ r, r ∈ child.excludedRows ↔ r ∈ parent.excludedRows ∨ r ∈ before
  length : child.forcedRows.length = parent.forcedRows.length + 1

/-- The children for the alternatives `rows` still to come after `before`. -/
inductive Children (parent : ExactAtMostTask) :
    List Nat → List Nat → List ExactAtMostTask → Prop
  | nil (before : List Nat) : Children parent before [] []
  | cons {before after : List Nat} {row : Nat} {child : ExactAtMostTask}
      {children : List ExactAtMostTask} : Extends parent before row child →
      Children parent (before ++ [row]) after children →
      Children parent before (row :: after) (child :: children)

theorem extends_of_fromParts {identity : ExactAtMostQueryIdentity} {number row : Nat}
    (h : ExactAtMostTask.fromParts identity number
      ((parent.forcedRows ++ [row]).insertionSort (· ≤ ·))
      ((parent.excludedRows ++ before).insertionSort (· ≤ ·)) = .ok child) :
    Extends parent before row child := by
  unfold ExactAtMostTask.fromParts at h
  split at h
  · cases h
    constructor
    · intro r
      simp
    · intro r
      simp
    · simp
  · cases h

theorem childTasks_meets {number : Nat → Nat} :
    Meets (fun _ => True) (childTasks host query parent number before rows)
      (Children parent before rows) := by
  induction rows generalizing before with
  | nil => exact .ret (.nil before)
  | cons row rows ih =>
    apply poll_seq
    apply lift_seq
    intro child hchild
    exact ih.bind fun children h => .ret (.cons (extends_of_fromParts hchild) h)

namespace Children

theorem length (h : Children parent before rows children) : children.length = rows.length := by
  induction h with
  | nil => rfl
  | cons _ _ ih => simp [ih]

theorem forced (h : Children parent before rows children) :
    ∀ child ∈ children, child.forcedRows.length = parent.forcedRows.length + 1 := by
  induction h with
  | nil => simp
  | cons hchild _ ih => simpa using ⟨hchild.length, ih⟩

theorem owns_child {row : Nat} (h : Extends parent before row child) : child.owns selected ↔
    parent.owns selected ∧ (∀ r ∈ before, r ∉ selected) ∧ row ∈ selected := by
  simp only [owns_iff, h.forced, h.excluded, or_imp, forall_and, forall_eq]
  tauto

/-- The first alternative the set contains decides which child owns it. -/
theorem owners (h : Children parent before rows children) : owners children selected =
    if parent.owns selected ∧ (∀ r ∈ before, r ∉ selected) ∧ ∃ r ∈ rows, r ∈ selected then 1
    else 0 := by
  induction h with
  | nil => simp [Cover.owners]
  | @cons before after row child children hchild _ ih =>
    have hown := @owns_child _ _ selected _ _ hchild
    rw [Cover.owners, countP_cons, ← Cover.owners, ih]
    by_cases hrow : row ∈ selected
    · -- The later children all exclude `row`.
      by_cases hmine : parent.owns selected ∧ ∀ r ∈ before, r ∉ selected
      · simp [hown, hrow, hmine.1]
      · simp only [hown, hrow]
        grind
    · simp [hown, hrow, or_imp, forall_and]

end Children

/-- What replaces a task in the frontier. -/
structure Splits (query : ExactAtMostQuery) (parent : ExactAtMostTask)
    (children : List ExactAtMostTask) : Prop where
  nonempty : children ≠ []
  length : children.length ≤ query.rows.length
  forced : ∀ child ∈ children, child.forcedRows.length = parent.forcedRows.length + 1
  room : parent.forcedRows.length < query.limit
  owners : ∀ selected, Admits query selected →
    owners children selected = if parent.owns selected then 1 else 0

theorem splits_of_children {order : List Nat} (hroom : parent.forcedRows.length < query.limit)
    (hpivot : IsPivot query parent rows) (horder : order.Perm rows) (hrows : rows ≠ [])
    (h : Children parent [] order children) : Splits query parent children where
  nonempty := by
    intro hnil
    have := h.length
    rw [hnil, horder.length_eq] at this
    exact hrows (length_eq_zero_iff.mp this.symm)
  length := by
    obtain ⟨pattern, -, -, rfl⟩ := hpivot
    rw [h.length, horder.length_eq]
    exact (length_filter_le _ _).trans (by simp)
  forced := h.forced
  room := hroom
  owners := by
    intro selected hcover
    rw [h.owners]
    by_cases howns : parent.owns selected
    · obtain ⟨row, hrow, hmem⟩ := hpivot.hit hcover howns
      rw [if_pos ⟨howns, by simp, row, horder.mem_iff.mpr hrow, hmem⟩, if_pos howns]
    · rw [if_neg fun h => howns h.1, if_neg howns]

variable {impact : Bool}

theorem branchOrder_perm : (branchOrder query impact parent rows).Perm rows := by
  unfold branchOrder
  split
  · exact perm_insertionSort _ _
  · rfl

theorem split_meets : Meets (fun _ => True) (split host query impact parent)
    fun children? => ∀ children ∈ children?, Splits query parent children := by
  apply Meets.ite
  · intro _
    exact .ret (by simp)
  · intro hroom
    apply poll_seq
    refine supporters_meets.bind fun found hfound => ?_
    match found with
    | none => exact .ret (by simp)
    | some [] => exact .ret (by simp)
    | some (row :: rows) =>
      apply poll_seq
      refine childTasks_meets.bind fun children hchildren => ?_
      apply poll_seq
      refine .ret ?_
      intro _ h
      cases h
      exact splits_of_children (Nat.lt_of_not_le hroom) (hfound _ rfl) branchOrder_perm (by simp)
        hchildren

/-! ## The frontier -/

/-- Every cover has one owner, and there is a task. -/
structure Frontier (query : ExactAtMostQuery) (tasks : List ExactAtMostTask) : Prop where
  nonempty : tasks ≠ []
  owners : ∀ selected, Admits query selected → owners tasks selected = 1
  forced : ∀ task ∈ tasks, task.forcedRows.length ≤ query.limit

variable {cursor : Nat}

theorem owners_eraseIdx (h : tasks[cursor]? = some parent) :
    owners (tasks.eraseIdx cursor) selected + (if parent.owns selected then 1 else 0) =
      owners tasks selected := by
  induction tasks generalizing cursor with
  | nil => simp at h
  | cons task tasks ih =>
    cases cursor with
    | zero =>
      simp only [getElem?_cons_zero, Option.some.injEq] at h
      simp [owners, countP_cons, h]
    | succ cursor =>
      have := ih (by simpa using h)
      simp only [owners, eraseIdx_cons_succ, countP_cons] at this ⊢
      omega

theorem Frontier.split (h : Frontier query tasks) (hparent : tasks[cursor]? = some parent)
    (hsplit : Splits query parent children) :
    Frontier query (tasks.eraseIdx cursor ++ children) where
  nonempty := by simp [hsplit.nonempty]
  owners := by
    intro selected hcover
    have := @owners_eraseIdx _ selected _ _ hparent
    rw [h.owners selected hcover, ← hsplit.owners selected hcover] at this
    rw [← this]
    exact countP_append
  forced := by
    intro task htask
    rcases mem_append.mp htask with htask | htask
    · exact h.forced task (mem_of_mem_eraseIdx htask)
    · rw [hsplit.forced task htask]
      exact hsplit.room

theorem frontierLoop_meets {target fuel cursor : Nat} (h : Frontier query tasks) :
    Meets (fun _ => True) (frontierLoop host query target impact fuel cursor tasks)
      (Frontier query) := by
  induction fuel generalizing cursor tasks with
  | zero => exact .ret h
  | succ fuel ih =>
    apply Meets.ite
    · intro _
      cases hparent : tasks[cursor]? with
      | none => exact .ret h
      | some parent =>
        apply poll_seq
        refine split_meets.bind fun children? hsplit => ?_
        match children? with
        | none => exact ih h
        | some children => exact ih (h.split hparent (hsplit children rfl))
    · intro _
      exact .ret h

/-! ### The loop ends by itself -/

/-- A bound on the turns a task can still cause. -/
def weight (query : ExactAtMostQuery) (task : ExactAtMostTask) : Nat :=
  (query.rows.length + 1) ^ (query.limit - task.forcedRows.length)

def turns (query : ExactAtMostQuery) (tasks : List ExactAtMostTask) : Nat :=
  (tasks.map (weight query)).sum

theorem Splits.turns_lt (h : Splits query parent children) :
    turns query children < weight query parent := by
  obtain ⟨room, hroom⟩ : ∃ room, query.limit - parent.forcedRows.length = room + 1 :=
    ⟨query.limit - parent.forcedRows.length - 1, by have := h.room; omega⟩
  have hweight : ∀ child ∈ children, weight query child = (query.rows.length + 1) ^ room := by
    intro child hchild
    rw [weight, h.forced child hchild]
    congr 1
    omega
  have hpos : 0 < (query.rows.length + 1) ^ room := Nat.pow_pos (Nat.succ_pos _)
  calc turns query children = children.length * (query.rows.length + 1) ^ room := by
        rw [turns, map_congr_left hweight, map_const', sum_replicate, smul_eq_mul]
    _ ≤ query.rows.length * (query.rows.length + 1) ^ room := Nat.mul_le_mul_right _ h.length
    _ < weight query parent := by
        rw [weight, hroom, pow_succ]
        nlinarith

theorem turns_drop (h : tasks[cursor]? = some parent) :
    turns query (tasks.drop cursor) = weight query parent + turns query (tasks.drop (cursor + 1)) := by
  obtain ⟨hlt, rfl⟩ := List.getElem?_eq_some_iff.mp h
  rw [List.drop_eq_getElem_cons hlt]
  rfl

theorem turns_eraseIdx (h : tasks[cursor]? = some parent) :
    turns query ((tasks.eraseIdx cursor ++ children).drop cursor) =
      turns query (tasks.drop (cursor + 1)) + turns query children := by
  obtain ⟨hlt, -⟩ := List.getElem?_eq_some_iff.mp h
  have hlen : (tasks.take cursor).length = cursor := List.length_take_of_le hlt.le
  rw [eraseIdx_eq_take_drop_succ, append_assoc, drop_append_of_le_length hlen.ge,
    drop_of_length_le hlen.le]
  simp [turns]

/-- Fuel is never what ends the loop of `prepare`. -/
theorem frontierLoop_fuel {target fuel cursor n : Nat} (h : turns query (tasks.drop cursor) ≤ fuel) :
    frontierLoop host query target impact (fuel + 1) cursor tasks n =
      frontierLoop host query target impact fuel cursor tasks n := by
  induction fuel generalizing cursor tasks n with
  | zero =>
    cases hparent : tasks[cursor]? with
    | none => simp [frontierLoop, hparent]
    | some parent =>
      have hpos : 0 < weight query parent := Nat.pow_pos (Nat.succ_pos _)
      rw [turns_drop hparent] at h
      omega
  | succ fuel ih =>
    by_cases hlen : tasks.length < max target 1
    · cases hparent : tasks[cursor]? with
      | none => simp [frontierLoop, hparent]
      | some parent =>
        rw [turns_drop hparent] at h
        unfold frontierLoop
        simp only [if_pos hlen, hparent]
        refine poll_meets.bind_congr (fun _ _ => split_meets.bind_congr ?_) n
        intro children? hsplit s
        cases children? with
        | none =>
          have hpos : 0 < weight query parent := Nat.pow_pos (Nat.succ_pos _)
          exact ih (by omega)
        | some children =>
          have hlt := (hsplit children rfl).turns_lt
          apply ih
          rw [turns_eraseIdx hparent]
          omega
    · simp [frontierLoop, hlen]

/-- Whatever the host answers, the loop of `prepare` is over within its bound on the turns. -/
theorem frontierLoop_ends (task : ExactAtMostTask) (target more n : Nat) :
    frontierLoop host query target impact ((query.rows.length + 1) ^ query.limit + more) 0 [task] n =
      frontierLoop host query target impact ((query.rows.length + 1) ^ query.limit) 0 [task] n := by
  induction more with
  | zero => rfl
  | succ more ih =>
    have hturns : turns query [task] ≤ (query.rows.length + 1) ^ query.limit := by
      simpa [turns, weight] using Nat.pow_le_pow_right (Nat.succ_pos _) (Nat.sub_le _ _)
    exact (frontierLoop_fuel (hturns.trans (Nat.le_add_right _ _))).trans ih

/-! ## Idle assistance -/

theorem countSupporters_eq {pattern most checked checked' : Nat} {found result : List Nat}
    (h : countSupporters query parent pattern most rows found checked = some (result, checked'))
    (hmost : result.length ≤ most) :
    result = found ++ rows.filter fun row =>
      pattern ∈ query.row row ∧ row ∉ parent.excludedRows := by
  fun_induction countSupporters query parent pattern most rows found checked with
  | case1 => simp_all
  | case2 => cases h
  | case3 row rows found checked _ hrow hlong =>
    -- A scan that is left early has found too many.
    cases h
    simp at hmost
    omega
  | case4 row rows found checked _ hrow _ ih =>
    rw [ih h, filter_cons_of_pos (by simpa using hrow)]
    simp
  | case5 row rows found checked _ hrow ih =>
    rw [ih h, filter_cons_of_neg (by simpa using hrow)]

theorem forcedCovers_false {pattern checked checked' : Nat}
    (h : forcedCovers query pattern rows checked = some (false, checked')) :
    ∀ row ∈ rows, pattern ∉ query.row row := by
  fun_induction forcedCovers query pattern rows checked with
  | case1 => simp
  | case2 => cases h
  | case3 => simp at h
  | case4 row rows checked _ hrow ih => simpa using ⟨hrow, ih h⟩

theorem probeRoot_meets {most checked : Nat} {patterns : List Nat}
    (hrequired : ∀ pattern ∈ patterns, pattern ∈ query.required) :
    Meets (fun _ => True) (probeRoot host query parent most patterns checked) fun probe =>
      ∀ rows, probe = .selected rows → IsPivot query parent rows ∧ rows ≠ [] := by
  induction patterns generalizing checked with
  | nil => exact .ret (by simp)
  | cons pattern patterns ih =>
    have hrest (checked : Nat) := @ih checked fun p hp => hrequired p (mem_cons_of_mem _ hp)
    apply poll_seq
    split
    · exact .ret (by simp)
    · exact hrest _
    · rename_i hforced
      split
      · exact .ret (by simp)
      · rename_i hcount
        apply Meets.ite
        · intro hlength
          refine .ret ?_
          rintro _ ⟨⟩
          refine ⟨⟨pattern, hrequired pattern mem_cons_self, forcedCovers_false hforced, ?_⟩, ?_⟩
          · exact countSupporters_eq hcount hlength.2
          · rintro rfl
            simp at hlength
        · intro _
          exact hrest _

variable {coordinator : ExactAtMostCoordinator} {root : Nat}

/-- A fan-out of an open obligation that had none. -/
structure Assisted (coordinator : ExactAtMostCoordinator) (root : Nat) (parent : ExactAtMostTask)
    (children : List ExactAtMostTask) : Prop where
  root_lt : root < coordinator.assistanceState.roots.length
  task : coordinator.tasks[root]? = some parent
  unreceived : coordinator.hasReceived root = false
  unclosed : (coordinator.obligation root).closed = false
  childless : (coordinator.obligation root).children = none
  splits : Splits coordinator.query parent children

/-- What the choice of a pivot leaves for the children to be made. -/
def Selected (coordinator : ExactAtMostCoordinator) (root : Nat) (rows : List Nat) : Prop :=
  ∀ parent, coordinator.tasks[root]? = some parent → ∀ children, Children parent [] rows children →
    Assisted coordinator root parent children

theorem selectPivot_meets {most checked : Nat} {roots : List Nat}
    (hroots : ∀ root ∈ roots, root < coordinator.assistanceState.roots.length) :
    Meets (fun _ => True) (coordinator.selectPivot host most roots checked) fun pivot =>
      ∀ root rows, pivot = some (root, rows) → Selected coordinator root rows := by
  induction roots generalizing checked with
  | nil => exact .ret (by simp)
  | cons root roots ih =>
    have hrest (checked : Nat) := @ih checked fun r hr => hroots r (mem_cons_of_mem _ hr)
    apply poll_seq
    split
    · exact .ret (by simp)
    · rename_i parent hparent
      apply Meets.ite
      · intro _
        exact hrest _
      · intro hopen
        push Not at hopen
        refine (probeRoot_meets requiredPatterns_sub).bind fun probe hprobe => ?_
        match probe with
        | .exhausted => exact .ret (by simp)
        | .declined checked => exact hrest checked
        | .selected supporters =>
          obtain ⟨hpivot, hsome⟩ := hprobe supporters rfl
          refine .ret ?_
          rintro _ _ ⟨⟩ other hother children hchildren
          cases hparent.symm.trans hother
          exact {
            root_lt := hroots root mem_cons_self
            task := hparent
            unreceived := by simpa using hopen.1
            unclosed := by simpa using hopen.2.1
            childless := by simpa using hopen.2.2.1
            splits := splits_of_children hopen.2.2.2 hpivot (.refl _) hsome hchildren }

theorem forM_poll_meets {α : Type} (l : List α) :
    Meets (fun _ => True) (l.forM fun _ => host.poll) fun _ => True := by
  induction l with
  | nil => exact .ret trivial
  | cons a l ih => exact poll_seq ih

theorem stageIdleAssist_meets {most : Nat} :
    Meets (fun _ => True) (coordinator.stageIdleAssist host most) fun staged? =>
      ∀ staged ∈ staged?, ∃ root parent children, Assisted coordinator root parent children ∧
        staged = coordinator.withChildren root children := by
  apply Meets.ite
  · intro _
    exact .ret (by simp)
  · intro _
    refine (selectPivot_meets (by simp)).bind fun pivot hpivot => ?_
    match pivot with
    | none => exact .ret (by simp)
    | some (root, rows) =>
      dsimp only
      split
      · exact .ret (by simp)
      · rename_i parent hparent
        refine (forM_poll_meets _).bind fun _ _ => childTasks_meets.bind fun children hchildren => ?_
        apply poll_seq
        refine .ret ?_
        rintro _ ⟨⟩
        exact ⟨root, parent, children, hpivot root rows rfl parent hparent children hchildren, rfl⟩

/-- A call that returns `true` has added a fan-out; any other leaves the coordinator alone. -/
theorem prepareIdleAssist_triple {issued most : Nat} :
    Lib.Fallible.Triple (· = coordinator) (prepareIdleAssist host issued most)
      (fun assisted after =>
        if assisted then ∃ root parent children, Assisted coordinator root parent children ∧
          after = coordinator.withChildren root children
        else after = coordinator) (· = coordinator) := by
  apply Lib.Fallible.Triple.read_state
  rintro _ rfl
  split
  · exact .ret (by simp)
  · split
    · rename_i staged n hstaged
      refine .seq .update_state fun _ => .ret ?_
      rintro _ ⟨_, -, rfl⟩
      simpa using ((poll_seq stageIdleAssist_meets).result hstaged).1 _ rfl
    · exact .ret (by simp)
    · exact .ret (by simp)
    · exact .lift_step (by simp) (by simp)

/-! ## The coordinator -/

theorem owners_renumbered : owners (tasks.mapIdx fun index task =>
    { task with partitionId := index }) selected = owners tasks selected := by
  rw [owners, mapIdx_eq_zipIdx_map, countP_map]
  conv_rhs => rw [owners, ← zipIdx_map_fst 0 tasks, countP_map]
  rfl

theorem prepare_frontier {target n n' : Nat} {impact : Bool}
    (h : prepareWithBranchOrder host query target impact n = .ok (coordinator, n')) :
    ∃ tasks, Frontier query tasks ∧ coordinator =
      ⟨query, tasks, List.replicate tasks.length false, .pending tasks.length, none⟩ := by
  have hmeets : Meets (fun _ => True) (prepareWithBranchOrder host query target impact)
      fun coordinator => ∃ tasks, Frontier query tasks ∧ coordinator =
        ⟨query, tasks, List.replicate tasks.length false, .pending tasks.length, none⟩ := by
    apply poll_seq
    apply lift_seq
    intro root hroot
    cases hroot
    refine (frontierLoop_meets ?_).bind fun tasks htasks => poll_seq (.ret ?_)
    · exact ⟨by simp, by simp [owners, ExactAtMostTask.owns], by simp⟩
    · refine ⟨tasks.mapIdx fun index task => { task with partitionId := index },
        ⟨by simpa using htasks.nonempty, ?_, ?_⟩, by simp⟩
      · intro selected hcover
        rw [owners_renumbered, htasks.owners selected hcover]
      · intro task htask
        obtain ⟨i, hi, rfl⟩ := mem_mapIdx.mp htask
        exact htasks.forced tasks[i] (getElem_mem hi)
  exact (hmeets.result h).1

/-- Every cover lies in one cube of the frontier, whatever its target and branch order (`prepare`
    chooses them by policy), and every cover of an assisted root in one cube of its fan-out. -/
theorem covers_partition (host : Host) (query : ExactAtMostQuery) :
    (∀ target impact n coordinator n',
      prepareWithBranchOrder host query target impact n = .ok (coordinator, n') →
      (∀ selected, Admits query selected → owners coordinator.tasks selected = 1) ∧
      ∀ task ∈ coordinator.tasks, Emitted query task) ∧
    ∀ coordinator issued most after, coordinator.query = query →
      prepareIdleAssist host issued most coordinator = (.ok true, after) →
      ∃ root parent children, coordinator.tasks[root]? = some parent ∧
        after = coordinator.withChildren root children ∧
        (∀ selected, Admits query selected → parent.owns selected → owners children selected = 1) ∧
        ∀ child ∈ children, Emitted query child := by
  constructor
  · intro target impact n coordinator n' h
    obtain ⟨tasks, hfrontier, rfl⟩ := prepare_frontier h
    exact ⟨hfrontier.owners, fun task htask => emitted_of_le (hfrontier.forced task htask)⟩
  · rintro coordinator issued most after rfl h
    obtain ⟨root, parent, children, hassist, hafter⟩ : ∃ root parent children,
        Assisted coordinator root parent children ∧
        after = coordinator.withChildren root children := by
      simpa using prepareIdleAssist_triple.ok rfl h
    refine ⟨root, parent, children, hassist.task, hafter, ?_, ?_⟩
    · intro selected hcover howns
      rw [hassist.splits.owners selected hcover, if_pos howns]
    · intro child hchild
      apply emitted_of_le
      rw [hassist.splits.forced child hchild]
      exact hassist.splits.room

/-- Three patterns, each pair of them a row. -/
def triangle : ExactAtMostQuery where
  identity := ⟨[], 1, 1⟩
  patternCount := 3
  required := {0, 1, 2}
  rows := [{0, 1}, {0, 2}, {1, 2}]
  limit := 2
  required_lt := by decide
  rows_lt := by decide

def triangleRoot : ExactAtMostCoordinator where
  query := triangle
  tasks := [⟨triangle.identity, 0, [], [], .nil, .nil, by simp⟩]
  received := [false]
  decision := .pending 1
  assistance := none

theorem admits_triangle : Admits triangle {0, 1} := ⟨by decide, by decide, by decide⟩

theorem covers_partition_triangle : (∃ coordinator n,
      prepareWithBranchOrder (fun _ => .ok ()) triangle 2 true 0 = .ok (coordinator, n) ∧
      owners coordinator.tasks {0, 1} = 1) ∧
    ∃ children, owners children {0, 1} = 1 ∧
      (prepareIdleAssist (fun _ => .ok ()) 1 64 triangleRoot).2 =
        triangleRoot.withChildren 0 children := by
  have hpartition := covers_partition (fun _ => .ok ()) triangle
  constructor
  · have hok : (prepareWithBranchOrder (fun _ => .ok ()) triangle 2 true 0).isOk := by
      decide +kernel
    cases h : prepareWithBranchOrder (fun _ => .ok ()) triangle 2 true 0 with
    | error e =>
      rw [h] at hok
      cases hok
    | ok run => exact ⟨run.1, run.2, rfl, (hpartition.1 _ _ _ _ _ h).1 _ admits_triangle⟩
  · have h : (prepareIdleAssist (fun _ => .ok ()) 1 64 triangleRoot).1 = .ok true := by decide +kernel
    obtain ⟨root, parent, children, hparent, hafter, howners, -⟩ :=
      hpartition.2 triangleRoot 1 64 _ rfl (Prod.ext h rfl)
    have hroot : root = 0 := by
      have := (List.getElem?_eq_some_iff.mp hparent).1
      simpa [triangleRoot] using this
    subst hroot
    cases hparent
    exact ⟨children, howners _ admits_triangle (by decide), hafter⟩

end Clearra.Proof.Cover
