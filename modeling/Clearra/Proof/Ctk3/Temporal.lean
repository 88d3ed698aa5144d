import Clearra.Proof.Ctk3.Pages

/-!
# Temporal pages read back

The writer looks at all pages, the reader at those it has: at page `index` these are the first `index`
pages, and every reference the writer makes is to one of them. The hash maps only have to remember
places before `index` that hold what they were asked for; which of them is found does not matter.
-/

namespace Clearra.Proof.Ctk3

open Clearra.Ctk3 Lib SharedFieldPredictor List Option Nat

/-! ## Leading bits -/

theorem appends_one_two : Appends (writeBits 1 2) [true, false] := appends_writeBits 1 2

theorem appends_three_two : Appends (writeBits 3 2) [true, true] := appends_writeBits 3 2

theorem appends_three_three : Appends (writeBits 3 3) [true, true, false] := appends_writeBits 3 3

theorem appends_seven_three : Appends (writeBits 7 3) [true, true, true] := appends_writeBits 7 3

/-! ## What is recorded of earlier pages -/

theorem mem_of_priorIndex {α : Type} [BEq α] [LawfulBEq α] {latest : List (α × Nat)} {key : α}
    {index prior : Nat} (h : priorIndex latest key index = some prior) : (key, prior) ∈ latest := by
  obtain ⟨front, back, rfl, -⟩ := lookup_eq_some_iff.mp (filter_eq_some_iff.mp h).1
  exact mem_append_right _ mem_cons_self

/-- Everything recorded is about a page before `index`. -/
structure ContextOk (pages : List NormalizedPage) (index : Nat) (context : TemporalContext) :
    Prop where
  field : ∀ entry ∈ context.latestField, entry.2 < index
  page : ∀ entry ∈ context.latestPage, entry.2 < index ∧ pages[entry.2]? = some entry.1
  comment : ∀ entry ∈ context.latestComment, entry.2 < index ∧ entry.1 ≠ "" ∧
    ∃ page, pages[entry.2]? = some page ∧ page.comment = entry.1

theorem ContextOk.empty (pages : List NormalizedPage) (index : Nat) :
    ContextOk pages index .empty := by
  refine ⟨?_, ?_, ?_⟩ <;> exact fun entry h => absurd h (by simp [TemporalContext.empty])

variable {pages : List NormalizedPage} {context : TemporalContext}

theorem ContextOk.mono {index index' : Nat} (h : ContextOk pages index context)
    (hle : index ≤ index') :
    ContextOk pages index' context where
  field entry he := (h.field entry he).trans_le hle
  page entry he := ⟨(h.page entry he).1.trans_le hle, (h.page entry he).2⟩
  comment entry he := ⟨(h.comment entry he).1.trans_le hle, (h.comment entry he).2⟩

variable {index : Nat} {page : NormalizedPage}

theorem ContextOk.record (h : ContextOk pages index context) (hpage : pages[index]? = some page) :
    ContextOk pages (index + 1) (recordTemporalPage context page index) := by
  have hmono := h.mono (le_succ index)
  refine ⟨?_, ?_, ?_⟩
  · exact forall_mem_cons.mpr ⟨lt_succ_self _, hmono.field⟩
  · exact forall_mem_cons.mpr ⟨⟨lt_succ_self _, hpage⟩, hmono.page⟩
  · rw [recordTemporalPage]
    simp only
    split
    · exact hmono.comment
    · rename_i hcomment
      exact forall_mem_cons.mpr ⟨⟨lt_succ_self _, hcomment, page, hpage, rfl⟩, hmono.comment⟩

theorem ContextOk.recordRun (h : ContextOk pages index context) {count : Nat}
    (hpages : ∀ i, i < count → pages[index + i]? = some page) :
    ContextOk pages (index + count) (recordRun context page index count) := by
  induction count with
  | zero => exact h
  | succ count ih =>
    rw [Clearra.Ctk3.recordRun, range'_1_concat, foldl_append, foldl_cons, foldl_nil]
    exact (ih fun i hi => hpages i (hi.trans (lt_succ_self _))).record
      (hpages count (lt_succ_self _))

/-! ## References -/

section

variable {b : Build} (hb : 32 ≤ b.pointerBits) {pages : List NormalizedPage}
  (hpages : pages.length < 2 ^ 32) {index : Nat} (hindex : index ≤ pages.length)
include hb hpages hindex

omit hb hpages in
theorem length_take_index : (pages.take index).length = index := by
  rw [length_take, Nat.min_eq_left hindex]

theorem encodes_reference {prior : Nat} (hprior : prior < index) (hpage : pages[prior]? = some page)
    (reason : String) :
    Encodes (writeVarUint (index - prior - 1)) (readReference b (pages.take index) reason) page := by
  refine (encodes_varUintPlus hb (by omega) (by omega)).andThen ?_
  have hget : (pages.take index)[index - (index - prior)]? = some page := by
    rw [Nat.sub_sub_self hprior.le, getElem?_take_of_lt hprior, hpage]
  rw [length_take_index hindex, failIf_of_not (by omega), pure_bind, indexed, hget]
  exact .pure page

end

theorem referenceCandidate_eq_ok {mode modeWidth index : Nat} {prior : Option Nat}
    {l : List BitWriter} (h : referenceCandidate mode modeWidth index prior = .ok l) : ∀ c ∈ l,
      ∃ p, prior = some p ∧
        (writeBits mode modeWidth >=> writeVarUint (index - p - 1)) .empty = .ok c := by
  cases prior with
  | none =>
    cases h
    simp
  | some p =>
    rw [referenceCandidate, bind_eq_ok] at h
    obtain ⟨c, hc, hl⟩ := h
    cases hl
    intro c' hc'
    rw [mem_singleton.mp hc']
    exact ⟨p, rfl, hc⟩

/-! ## Flags, height, garbage -/

theorem encodes_temporalFlags (flags : Ctk3PageFlags) (previous : Option Ctk3PageFlags) :
    Encodes (writeTemporalFlags flags previous) (readTemporalFlags previous) flags := by
  rw [writeTemporalFlags]
  split
  · rename_i hstandard
    subst hstandard
    exact .of_appends (appends_writeBit false) (reads_unset (.pure _))
  · split
    · rename_i hprevious
      subst hprevious
      exact .of_appends appends_one_two (reads_set (reads_unset (.pure _)))
    · exact .tag appends_three_two (encodes_flagBits flags) fun cs h => reads_set (reads_set h)

theorem encodes_temporalHeight (height : Nat) (previous : Option NormalizedPage) :
    Encodes (writeTemporalHeight height (previous.map NormalizedPage.height))
      (readTemporalHeight previous) height := by
  cases previous with
  | none => exact encodes_writeVarUint height
  | some previous =>
    rw [map_some, writeTemporalHeight]
    split
    · rename_i heq
      refine (encodes_writeBit false).andThen ?_
      rw [if_neg Bool.false_ne_true, heq]
      exact .pure _
    · refine (encodes_writeBit true).seq ?_
      rw [if_pos rfl]
      exact encodes_writeVarUint height

variable {b : Build}

theorem encodes_temporalGarbage (hb : 32 ≤ b.pointerBits) {width : Nat} (hwidth : width ≤ maxWidth)
    (hpage : Encodable width page) (previous : Option (List Nat)) :
    Encodes (writeTemporalGarbage page.garbageCodes previous) (readTemporalGarbage b width previous)
      page.garbageCodes := by
  cases hgarbage : page.garbageCodes with
  | none => exact .of_appends (appends_writeBit false) (reads_unset (.pure _))
  | some garbage =>
    rw [writeTemporalGarbage]
    split
    · rename_i hprevious
      subst hprevious
      exact .of_appends appends_one_two (reads_set (reads_unset (.pure _)))
    · have hcells := encodes_garbage hb hwidth (hpage.garbage_length _ hgarbage)
        (hpage.garbage_valid _ hgarbage) previous (by decide : 3 ≤ 4)
      exact .tag appends_three_two (hcells.andThen (.pure _)) fun cs h => reads_set (reads_set h)

/-! ## Operation -/

theorem readMovedOperation_reads {operation previous : Ctk3Operation}
    (hpiece : previous.piece = operation.piece) (hrotation : previous.rotation = operation.rotation)
    (h : CanonicalOperation operation) :
    Encodes (writeSignedVarInt (operation.x - previous.x) >=>
      writeSignedVarInt (operation.y - previous.y)) (readMovedOperation previous) operation := by
  have hrange := of_decide_eq_true h.1
  rw [maxOperationCoordinate] at hrange
  refine (encodes_writeSignedVarInt _).seq ((encodes_writeSignedVarInt _).andThen ?_)
  have hx : previous.x + (operation.x - previous.x) = operation.x := by omega
  have hy : previous.y + (operation.y - previous.y) = operation.y := by omega
  have hfits : ¬((!fitsI32 operation.x || !fitsI32 operation.y) = true) := by
    simp only [fitsI32, Bool.or_eq_true, Bool.not_eq_true', decide_eq_false_iff_not]
    omega
  rw [hx, hy, failIf_of_not hfits, pure_bind]
  have hmoved : { previous with x := operation.x, y := operation.y } = operation := by
    obtain ⟨piece, rotation, x, y⟩ := operation
    simp only at hpiece hrotation
    rw [hpiece, hrotation]
  rw [hmoved, normalizeDecodedOperation_of_canonical h]
  exact .pure operation

theorem encodes_temporalOperation {width : Nat} (hpage : Encodable width page)
    (previous : Option Ctk3Operation) :
    Encodes (writeTemporalOperation page.operation previous) (readTemporalOperation previous)
      page.operation := by
  cases hoperation : page.operation with
  | none => exact .of_appends (appends_writeBit false) (reads_unset (.pure _))
  | some operation =>
    have hcanonical := hpage.operation_canonical operation hoperation
    rw [writeTemporalOperation]
    split
    · rename_i hprevious
      subst hprevious
      exact .of_appends appends_one_two (reads_set (reads_unset (.pure _)))
    · refine .given fun literal hliteral => .given fun moved hmoved => encodes_append_shortest ?_
      refine forall_mem_cons.mpr ⟨.of_encodes (.tag appends_seven_three
        ((encodes_operationBody hcanonical).andThen (.pure _))
        fun cs h => reads_set (reads_set (reads_set h))) hliteral, fun c hc => ?_⟩
      cases previous with
      | none =>
        cases hmoved
        simp at hc
      | some previous =>
        obtain ⟨⟨hpiece, hrotation⟩, hc⟩ := candidateIf_eq_ok hmoved c hc
        have hmove : Encodes (writeSignedVarInt (operation.x - previous.x) >=>
            writeSignedVarInt (operation.y - previous.y)) (do
              let previous ← orFail "operation delta has no reference" (some previous)
              let operation ← readMovedOperation previous
              pure (some operation)) (some operation) :=
          encodes_orFail rfl
            ((readMovedOperation_reads hpiece hrotation hcanonical).andThen (.pure _))
        exact .of_encodes (.tag appends_three_three hmove
          fun cs h => reads_set (reads_set (reads_unset h))) hc

/-! ## Comment -/

theorem encodes_temporalComment (hb : 32 ≤ b.pointerBits) (hpages : pages.length < 2 ^ 32)
    (hindex : index ≤ pages.length) (hcontext : ContextOk pages index context) {comment : String}
    (hcomment : comment.utf8ByteSize ≤ maxCommentBytes) :
    Encodes (writeTemporalComment pages context index comment)
      (readTemporalComment b (pages.take index)) comment := by
  rw [writeTemporalComment]
  split
  · rename_i hempty
    subst hempty
    exact .of_appends (appends_writeBit false) (reads_unset (.pure _))
  · refine .given fun literal hliteral => .given fun copied hcopied =>
      .given fun referenced hreferenced => encodes_append_shortest ?_
    refine forall_mem_cons.mpr ⟨.of_encodes (.tag appends_seven_three
      (encodes_commentLiteral hcomment) fun cs h => reads_set (reads_set (reads_set h))) hliteral,
      forall_mem_append.mpr ⟨fun c hc => ?_, fun c hc => ?_⟩⟩
    · obtain ⟨hany, hc⟩ := candidateIf_eq_ok hcopied c hc
      refine .of_encodes (.of_appends appends_one_two (reads_set (reads_unset ?_))) hc
      cases hprevious : (pages.take index).getLast? with
      | none =>
        rw [previousPage, hprevious] at hany
        simp at hany
      | some page =>
        rw [previousPage, hprevious] at hany
        rw [← of_decide_eq_true hany]
        exact .pure page.comment
    · obtain ⟨prior, hprior, hc⟩ := referenceCandidate_eq_ok hreferenced c hc
      obtain ⟨hlt, hne, page, hpage, hsame⟩ := hcontext.comment _ (mem_of_priorIndex hprior)
      refine .of_encodes (.tag appends_three_three ((encodes_reference hb hpages hindex hlt hpage
        _).andThen ?_) fun cs h => reads_set (reads_set (reads_unset h))) hc
      simp only at hsame hne
      rw [failIf_of_not (by rw [hsame]; exact hne), pure_bind, hsame]
      exact .pure comment

/-! ## Field -/

/-- The reader finds the predictor that the writer used. -/
def PredictionReads (b : Build) (width height : Nat) (history : List NormalizedPage)
    (shared : Option (List Nat)) (prediction : Prediction) : Prop :=
  prediction.mode < 16 ∧
    Encodes (writeOptional (fun distance => writeVarUint (distance - 1)) prediction.distance)
      (readPredictor b prediction.mode width height history shared) prediction.predictor

variable {shared : Option (List Nat)}

theorem previousPredictor_eq (hb : 32 ≤ b.pointerBits) {width height : Nat}
    {history : List NormalizedPage} {previous : NormalizedPage}
    (hlast : history.getLast? = some previous) (hnear : NearOperation previous) :
    ∀ prediction ∈ previousPredictions width height previous,
      PredictionReads b width height history shared prediction := by
  have hlocked := fun clearRows grayscale =>
    decoder_predictLockedCodes hnear hb width height clearRows grayscale
  have hread : ∀ mode codes, 1 ≤ mode → mode ≤ 7 →
      previousPredictor b mode width height previous = pure codes →
      PredictionReads b width height history shared ⟨mode, some codes, none⟩ := by
    intro mode codes hge hle hcodes
    refine ⟨by simp only; omega, ?_⟩
    rw [readPredictor, if_neg (by simp only; omega), if_pos (by simp only; omega), hlast, orFail,
      pure_bind, hcodes, pure_bind]
    exact .pure _
  simp only [previousPredictions, forall_mem_cons]
  refine ⟨hread 1 _ (by decide) (by decide) ?_, hread 2 _ (by decide) (by decide) ?_,
    hread 3 _ (by decide) (by decide) (decoder_mirrorCodes _ _ _ _),
    hread 4 _ (by decide) (by decide) (hlocked _ _), hread 5 _ (by decide) (by decide) (hlocked _ _),
    hread 6 _ (by decide) (by decide) (hlocked _ _), hread 7 _ (by decide) (by decide) (hlocked _ _),
    by simp⟩
  · rw [Nat.mul_comm height]
    rfl
  · rw [Nat.mul_comm height]
    rfl

theorem fieldReferences_lt (hcontext : ContextOk pages index context) (page : NormalizedPage) :
    ∀ prior ∈ fieldReferences context index page, prior < index := by
  intro prior hprior
  rw [fieldReferences] at hprior
  rcases mem_append.mp hprior with hexact | hwindow
  · exact hcontext.field _ (mem_of_priorIndex (mem_toList.mp hexact))
  · have hrange := mem_range'_1.mp (mem_of_mem_filter hwindow)
    omega

section

variable {b : Build} (hb : 32 ≤ b.pointerBits) {pages : List NormalizedPage}
  (hpages : pages.length < 2 ^ 32) {index : Nat} (hindex : index ≤ pages.length)
include hb hpages hindex

theorem referencePredictions_eq {prior : Nat} (hprior : prior < index) (width height : Nat)
    (shared : Option (List Nat)) :
    ∀ prediction ∈ referencePredictions pages width index height prior,
      PredictionReads b width height (pages.take index) shared prediction := by
  rw [referencePredictions, getElem?_eq_getElem (by omega)]
  have hreference := encodes_reference hb hpages hindex hprior
    (getElem?_eq_getElem (by omega)) "temporal field reference is invalid"
  simp only [forall_mem_cons]
  refine ⟨⟨by simp, hreference.andThen ?_⟩, ⟨by simp, hreference.andThen ?_⟩, by simp⟩
  · rw [Nat.mul_comm height]
    exact .pure _
  · rw [decoder_mirrorCodes, pure_bind]
    exact .pure _

variable {width : Nat} (hwidth : width ≤ maxWidth)
  (hencodable : ∀ page ∈ pages, Encodable width page) (shared : Option SharedFieldPredictor)
  {context : TemporalContext} (hcontext : ContextOk pages index context)
include hencodable hcontext

theorem fieldPredictions_read (page : NormalizedPage) :
    ∀ prediction ∈ fieldPredictions pages width shared context index page,
      PredictionReads b width page.height (pages.take index) (shared.map codes) prediction := by
  intro prediction hprediction
  rw [fieldPredictions] at hprediction
  rcases mem_append.mp hprediction with hprediction | hshared
  · rcases mem_append.mp hprediction with hprevious | hreference
    · obtain ⟨previous, hlast, hprevious⟩ := mem_flatMap.mp hprevious
      have hlast := mem_toList.mp hlast
      have hmem := mem_of_mem_take (mem_of_getLast? hlast)
      exact previousPredictor_eq hb hlast (hencodable previous hmem).near prediction hprevious
    · obtain ⟨prior, hprior, hreference⟩ := mem_flatMap.mp hreference
      exact referencePredictions_eq hb hpages hindex (fieldReferences_lt hcontext page prior hprior)
        width page.height _ prediction hreference
  · cases shared with
    | none => exact absurd hshared (by simp [sharedPredictions])
    | some shared =>
      rw [mem_singleton.mp hshared]
      refine ⟨by simp, ?_⟩
      rw [readPredictor, if_neg (by simp), if_neg (by simp), if_neg (by simp), if_neg (by simp),
        if_pos rfl, map_some, orFail, pure_bind,
        Nat.mul_comm page.height]
      exact .pure _

include hwidth

theorem encodes_temporalField (hpage : Encodable width page) :
    Encodes (writeTemporalField pages width shared context index page)
      (readTemporalField b width page.height (pages.take index) (shared.map codes)) page.codes := by
  have hcells := codes_lt hwidth hpage
  -- One way to write the field, if its predictor is found again.
  have hcandidate : ∀ prediction c, PredictionReads b width page.height (pages.take index)
      (shared.map codes) prediction →
      fieldCandidate page.codes prediction = .ok c →
      Candidate (readTemporalField b width page.height (pages.take index)
        (shared.map codes)) page.codes c := by
    rintro ⟨mode, predictor, distance⟩ c ⟨hmode, hpredictor⟩ hc
    refine .of_encodes ((encodes_writeBits (hmode.trans (by decide))).seq
      (encodes_fieldSize hb hwidth hpage (hpredictor.seq ?_))) hc
    cases predictor with
    | none => exact encodes_bestCellEncoding hb hcells hpage.codes_valid none (by decide) true
    | some predictor =>
      exact encodes_bestPredictedCellEncoding hb hcells hpage.codes_valid predictor (by decide)
  refine .given fun plain hplain => .given fun predicted hpredicted => encodes_append_shortest ?_
  refine forall_mem_cons.mpr ⟨hcandidate _ plain ⟨by decide, Encodes.pure none⟩ hplain,
    fun c hc => ?_⟩
  obtain ⟨prediction, hprediction, hc⟩ := exists_of_mem_mapM hpredicted hc
  exact hcandidate prediction c (fieldPredictions_read hb hpages hindex hencodable shared hcontext
    page prediction hprediction) hc

theorem encodes_temporalPage (hpage : Encodable width page) :
    Encodes (writeTemporalPage pages width shared context index page)
      (readTemporalPage b width (pages.take index) (shared.map codes))
      page :=
  (encodes_temporalFlags page.flags _).seq ((encodes_temporalHeight page.height _).seq
    (encodes_failIf (Nat.not_lt.mpr hpage.height_le)
    ((encodes_temporalField hb hpages hindex hwidth hencodable shared hcontext hpage).seq
    ((encodes_temporalGarbage hb hwidth hpage _).seq
    ((encodes_temporalComment hb hpages hindex hcontext hpage.comment_size).seq
    ((encodes_temporalOperation hpage _).andThen (.pure page)))))))

theorem encodes_pageCandidates (hpage : Encodable width page) (pageCount : Nat) :
    Encodes (writePageCandidates pages width shared context index page)
      (readTemporalStep b width pageCount (shared.map codes) (pages.take index)) [page] := by
  have hsingle : ∀ {f : Write} {p : Read NormalizedPage}, Encodes f p page →
      Encodes f (do let page ← p; pure [page]) [page] := fun h => h.andThen (.pure _)
  refine .given fun normal hnormal => .given fun copied hcopied =>
    .given fun referenced hreferenced => encodes_append_shortest ?_
  refine forall_mem_cons.mpr ⟨.of_encodes ((encodes_writeBits (by decide)).seq (hsingle
    (encodes_temporalPage hb hpages hindex hwidth hencodable shared hcontext hpage))) hnormal,
    forall_mem_append.mpr ⟨fun c hc => ?_, fun c hc => ?_⟩⟩
  · obtain ⟨hprevious, hc⟩ := candidateIf_eq_ok hcopied c hc
    refine .of_encodes ((encodes_writeBits (by decide)).andThen ?_) hc
    simp only
    rw [← previousPage, hprevious]
    exact .pure [page]
  · obtain ⟨prior, hprior, hc⟩ := referenceCandidate_eq_ok hreferenced c hc
    obtain ⟨hlt, hsame⟩ := hcontext.page _ (mem_of_priorIndex hprior)
    exact .of_encodes ((encodes_writeBits (by decide)).seq
      (hsingle (encodes_reference hb hpages hindex hlt hsame _))) hc

end

/-! ## The loop -/

theorem repeatCount_spec (page : NormalizedPage) {i : Nat} (h : i < repeatCount pages index page) :
    pages[index + i]? = some page := by
  rw [repeatCount] at h
  split at h
  · have hmem := getElem_mem h
    have heq := mem_takeWhile_imp hmem
    rw [beq_iff_eq] at heq
    have hprefix := List.takeWhile_prefix (· == page) (l := pages.drop index)
    have hget := hprefix.getElem h
    rw [heq] at hget
    rw [← getElem?_drop, getElem?_eq_getElem (h.trans_le hprefix.length_le), ← hget]
  · exact absurd h (Nat.not_lt_zero i)

/-- A run is written only where the pages repeat, and not past the end. -/
theorem repeatRun_spec (hindex : index ≤ pages.length) {run : BitWriter}
    (h : repeatRun (repeatCount pages index page) = .ok (some run)) :
    previousPage pages index = some page ∧ 0 < repeatCount pages index page ∧
      index + repeatCount pages index page ≤ pages.length := by
  have htwo : 2 ≤ repeatCount pages index page := by
    by_contra hlt
    rw [repeatRun, if_neg hlt] at h
    exact absurd (Except.ok.inj h) (by simp)
  have hprevious : previousPage pages index = some page := by
    by_contra hne
    rw [repeatCount, if_neg hne] at htwo
    exact absurd htwo (by decide)
  refine ⟨hprevious, by omega, ?_⟩
  have hle : repeatCount pages index page ≤ (pages.drop index).length := by
    rw [repeatCount, if_pos hprevious]
    exact (List.takeWhile_prefix _).length_le
  rw [length_drop] at hle
  omega

theorem take_add_repeat {index count : Nat} (h : ∀ i, i < count → pages[index + i]? = some page) :
    pages.take (index + count) = pages.take index ++ List.replicate count page := by
  induction count with
  | zero => simp
  | succ count ih =>
    rw [← Nat.add_assoc, take_add_one, h count (lt_succ_self _),
      ih fun i hi => h i (hi.trans (lt_succ_self _)), replicate_succ', append_assoc]
    rfl

theorem readTemporalLoop_full {width pageCount : Nat} {history : List NormalizedPage}
    (h : ¬history.length < pageCount) (rounds : Nat) :
    readTemporalLoop b width pageCount shared rounds history = pure history := by
  cases rounds with
  | zero => rw [readTemporalLoop, if_neg h]
  | succ rounds => rw [readTemporalLoop, if_neg h]

theorem ne_nil_of_reads_step {width pageCount : Nat} {history pushed : List NormalizedPage}
    {bs : List Bool} (h : Reads (readTemporalStep b width pageCount shared history) bs pushed) :
    bs ≠ [] :=
  ne_nil_of_reads rfl h

/-- One round of the reader, after which it has `index'` pages. -/
theorem reads_temporalRound {width index index' rounds : Nat} {pages pushed : List NormalizedPage}
    (hlt : index < pages.length) (htake : pages.take index' = pages.take index ++ pushed)
    {bs cs : List Bool}
    (hbs : Reads (readTemporalStep b width pages.length shared (pages.take index)) bs pushed)
    (hcs : Reads (readTemporalLoop b width pages.length shared rounds (pages.take index')) cs pages) :
    Reads (readTemporalLoop b width pages.length shared (rounds + 1) (pages.take index)) (bs ++ cs)
      pages := by
  rw [readTemporalLoop, if_pos (by rwa [length_take_index hlt.le])]
  rw [htake] at hcs
  exact hbs.bind hcs

section

variable {b : Build} (hb : 32 ≤ b.pointerBits) {pages : List NormalizedPage}
  (hpages : pages.length < 2 ^ 32) {width : Nat} (hwidth : width ≤ maxWidth)
  (hencodable : ∀ page ∈ pages, Encodable width page) (shared : Option SharedFieldPredictor)
include hb hpages

theorem encodes_repeatRun {index count : Nat} (hprevious : previousPage pages index = some page)
    (hcount : index + count ≤ pages.length) {run : BitWriter}
    (hrun : repeatRun count = .ok (some run)) :
    Encodes (append run) (readTemporalStep b width pages.length
      (shared.map codes) (pages.take index)) (List.replicate count page) := by
  rw [repeatRun] at hrun
  split at hrun
  · rename_i htwo
    obtain ⟨run', hrun', hsome⟩ := bind_eq_ok.mp hrun
    have hsome := Except.ok.inj hsome
    split at hsome
    · cases hsome
      refine encodes_append (.of_encodes ((encodes_writeBits (by decide)).seq ?_) hrun')
      refine encodes_orFail hprevious ((encodes_varUintPlus hb htwo (by omega)).andThen ?_)
      rw [length_take_index (by omega), usizeSub_of_le b (by omega), pure_bind,
        failIf_of_not (by omega), pure_bind]
      exact .pure _
    · simp at hsome
  · exact absurd (Except.ok.inj hrun) (by simp)

include hwidth hencodable

theorem encodes_temporalLoop (rounds : Nat) (hindex : index ≤ pages.length)
    (hrounds : pages.length - index ≤ rounds) (hcontext : ContextOk pages index context) :
    EncodesWithin remaining bits (writeTemporalLoop pages width shared rounds index context)
      (fun rounds => readTemporalLoop b width pages.length (shared.map codes)
        rounds (pages.take index)) pages := by
  induction rounds generalizing index context with
  | zero =>
    obtain rfl : index = pages.length := by omega
    refine .done fun rounds => ?_
    rw [take_length, readTemporalLoop_full (Nat.lt_irrefl _)]
    exact .pure pages
  | succ rounds ih =>
    rw [writeTemporalLoop]
    cases hpage : pages[index]? with
    | none =>
      have hge := getElem?_eq_none_iff.mp hpage
      refine .done fun rounds => ?_
      rw [take_of_length_le hge, readTemporalLoop_full (Nat.lt_irrefl _)]
      exact .pure pages
    | some page =>
      obtain ⟨hlt, -⟩ := List.getElem?_eq_some_iff.mp hpage
      refine .given fun run hrun => ?_
      cases run with
      | some run =>
        have hsame : ∀ i, i < repeatCount pages index page → pages[index + i]? = some page :=
          fun i => repeatCount_spec page
        obtain ⟨hprevious, hpos, hcount⟩ := repeatRun_spec hindex hrun
        exact .step (encodes_repeatRun hb hpages shared hprevious hcount hrun)
          (fun _ => ne_nil_of_reads_step) (ih hcount (by omega) (hcontext.recordRun hsame))
          fun rounds bs cs hbs hcs => reads_temporalRound hlt (take_add_repeat hsame) hbs hcs
      | none =>
        have htake : pages.take (index + 1) = pages.take index ++ [page] := by
          rw [take_add_one, hpage]
          rfl
        exact .step (encodes_pageCandidates hb hpages hindex hwidth hencodable shared hcontext
          (hencodable page (mem_of_getElem? hpage)) pages.length)
          (fun _ => ne_nil_of_reads_step) (ih hlt (by omega) (hcontext.record hpage))
          fun rounds bs cs hbs hcs => reads_temporalRound hlt htake hbs hcs

theorem encodes_temporalPages :
    Encodes (writeTemporalPages pages width shared) (readTemporalPages b width pages.length
      (shared.map codes)) pages :=
  (encodes_temporalLoop hb hpages hwidth hencodable shared pages.length (Nat.zero_le _)
    (Nat.le_refl _) (ContextOk.empty pages 0)).run bitsLeft_eq

end

end Clearra.Proof.Ctk3
