import Mathlib

/-!
# Row-compressed tables

A list of rows flattened into one vector, with the offset of each row's first value in another:
the layout of every adjacency table in the executor. There are two ways the source fills one —
row by row in order (`Csr.ofRows`), and scattered, by counting how many values each row will get
and then placing each value at its row's running cursor (`Csr.scatter`). For either, the one thing
a reader of the table relies on is what `row i` is, and that is what is proved.
-/

namespace Clearra.Lib

open List

variable {α : Type}

/-- `values[start..stop]`. -/
def slice (values : List α) (start stop : Nat) : List α := (values.drop start).take (stop - start)

structure Csr (α : Type) where
  offsets : List Nat
  values : List α

namespace Csr

/-- `values[offsets[i]..offsets[i + 1]]`. -/
def row (t : Csr α) (i : Nat) : List α :=
  slice t.values (t.offsets.getD i 0) (t.offsets.getD (i + 1) 0)

/-- Rows appended in order: extend the values, then push the new length. -/
def ofRows (rows : List (List α)) : Csr α :=
  rows.foldl (fun t r => ⟨t.offsets ++ [(t.values ++ r).length], t.values ++ r⟩) ⟨[0], []⟩

theorem ofRows_append_singleton (rows : List (List α)) (r : List α) :
    ofRows (rows ++ [r]) =
      ⟨(ofRows rows).offsets ++ [((ofRows rows).values ++ r).length],
        (ofRows rows).values ++ r⟩ := by
  simp [ofRows]

/-- The two vectors in closed form. Induction from the right: `ofRows` appends. -/
theorem ofRows_eq (rows : List (List α)) : (ofRows rows).values = rows.flatten ∧
      (ofRows rows).offsets =
        (List.range (rows.length + 1)).map fun i => (rows.take i).flatten.length := by
  induction rows using List.reverseRecOn with
  | nil => exact ⟨rfl, rfl⟩
  | append_singleton rows r ih =>
    obtain ⟨hv, ho⟩ := ih
    rw [ofRows_append_singleton]
    refine ⟨by simp [hv], ?_⟩
    dsimp only
    have hlen : (rows ++ [r]).length = rows.length + 1 := by simp
    rw [ho, hv, hlen, show List.range (rows.length + 1 + 1) = List.range (rows.length + 1) ++ [rows.length + 1] from
        range_succ, map_append]
    refine congrArg₂ (· ++ ·) (map_congr_left fun i hi => ?_) (by simp)
    rw [mem_range] at hi
    rw [take_append_of_le_length (by omega)]

theorem values_ofRows (rows : List (List α)) : (ofRows rows).values = rows.flatten :=
  (ofRows_eq rows).1

variable {rows : List (List α)}

theorem getD_offsets_ofRows {i : Nat} (h : i ≤ rows.length) :
    (ofRows rows).offsets.getD i 0 = (rows.take i).flatten.length := by
  rw [(ofRows_eq rows).2, getD_eq_getElem?_getD, getElem?_map, getElem?_range (by omega)]
  rfl

theorem flatten_eq_take_append (rows : List (List α)) {i : Nat} (h : i < rows.length) :
    rows.flatten = (rows.take i).flatten ++ (rows[i] ++ (rows.drop (i + 1)).flatten) := by
  conv_lhs => rw [← take_append_drop i rows, drop_eq_getElem_cons h]
  rw [flatten_append, flatten_cons]

theorem row_ofRows {i : Nat} (h : i < rows.length) : (ofRows rows).row i = rows[i] := by
  have hsucc : (rows.take (i + 1)).flatten.length =
      (rows.take i).flatten.length + rows[i].length := by
    rw [take_succ_eq_append_getElem h, flatten_append, length_append]
    simp
  rw [row, slice, getD_offsets_ofRows h.le, getD_offsets_ofRows (Nat.succ_le_of_lt h),
    values_ofRows, flatten_eq_take_append rows h, drop_left, hsucc]
  simp

theorem slice_ofRows {i k : Nat} (h : i < rows.length) (hk : k ≤ rows[i].length) :
    slice (ofRows rows).values ((ofRows rows).offsets.getD i 0)
      ((ofRows rows).offsets.getD i 0 + k) = rows[i].take k := by
  rw [slice, getD_offsets_ofRows h.le, values_ofRows, flatten_eq_take_append rows h, drop_left,
    Nat.add_sub_cancel_left, take_append_of_le_length hk]

theorem flatMap_row_ofRows (rows : List (List α)) :
    (List.range rows.length).flatMap (ofRows rows).row = (ofRows rows).values := by
  rw [values_ofRows, flatMap_def]
  refine congrArg List.flatten (ext_getElem (by simp) fun i h1 h2 => ?_)
  rw [getElem_map, getElem_range]
  exact row_ofRows h2

/-- Two nested loops are one loop over the product, row-major. -/
theorem flatMap_range_map (f : Nat → Nat → α) {m : Nat} (hm : 0 < m) (n : Nat) :
    (List.range n).flatMap (fun a => (List.range m).map (f a)) =
      (List.range (n * m)).map fun k => f (k / m) (k % m) := by
  induction n with
  | zero => simp
  | succ n ih =>
    rw [range_succ, flatMap_append, ih, Nat.succ_mul, range_add, map_append,
      flatMap_singleton, map_map]
    refine congrArg _ (map_congr_left fun j hj => ?_)
    rw [mem_range] at hj
    rw [Function.comp_apply, Nat.mul_comm n m, Nat.mul_add_div hm, Nat.div_eq_of_lt hj,
      Nat.mul_add_mod, Nat.mod_eq_of_lt hj, Nat.add_zero]

theorem getElem?_flatMap_map {β : Type} (f : β → Nat → α) {m j : Nat} (hj : j < m) :
    ∀ (l : List β) (i : Nat), (l.flatMap fun b => (List.range m).map (f b))[i * m + j]? =
      l[i]?.map (f · j) := by
  intro l
  induction l with
  | nil => intro i; simp
  | cons b rest ih =>
    intro i
    rw [flatMap_cons]
    cases i with
    | zero =>
      rw [Nat.zero_mul, Nat.zero_add, getElem?_append_left (by simpa using hj),
        getElem?_map, getElem?_range hj]
      rfl
    | succ i =>
      have hskip : (i + 1) * m + j = m + (i * m + j) := by ring
      rw [getElem?_append_right (by simp only [length_map, length_range]; omega),
        length_map, length_range, hskip, Nat.add_sub_cancel_left, ih,
        getElem?_cons_succ]

/-! ## Scattering by key -/

/-- How many values each row gets, one place to the right: `counts[key + 1] += 1`. -/
def countKeys (rowCount : Nat) (keys : List Nat) : List Nat :=
  keys.foldl (fun counts key => counts.modify (key + 1) (· + 1)) (List.replicate (rowCount + 1) 0)

/-- `for index in 1..len { counts[index] += counts[index - 1] }`, the sum so far carried along. -/
def prefixSums : Nat → List Nat → List Nat
  | _, [] => []
  | acc, c :: rest => (acc + c) :: prefixSums (acc + c) rest

/-- `values[cursors[key]] = value; cursors[key] += 1` for each entry in order. -/
def place (entries : List (Nat × α)) (start : List Nat × List α) : List Nat × List α :=
  entries.foldl
    (fun st e => (st.1.modify e.1 (· + 1), st.2.set (st.1.getD e.1 0) e.2)) start

/-- Counting sort of `entries` into rows `0..rowCount`, the counts taken from `keys`. -/
def scatter (rowCount : Nat) (keys : List Nat) (entries : List (Nat × α)) (blank : α) : Csr α :=
  let offsets := prefixSums 0 (countKeys rowCount keys)
  ⟨offsets, (place entries (offsets, List.replicate keys.length blank)).2⟩

/-- How many keys are smaller: where row `k` starts. -/
def below (keys : List Nat) (k : Nat) : Nat := keys.countP (· < k)

theorem below_succ (keys : List Nat) (k : Nat) : below keys (k + 1) = below keys k + keys.count k := by
  unfold below
  induction keys with
  | nil => rfl
  | cons x rest ih =>
    rw [countP_cons, countP_cons, count_cons, ih]
    by_cases h1 : x < k
    · have h2 : x < k + 1 := by omega
      have h3 : ¬x = k := by omega
      simp [h1, h2, h3]; omega
    · by_cases h3 : x = k
      · simp [h3]; omega
      · have h2 : ¬x < k + 1 := by omega
        simp [h1, h2, h3]

theorem below_mono (keys : List Nat) {j k : Nat} (h : j ≤ k) : below keys j ≤ below keys k := by
  unfold below
  refine countP_mono_left fun x _ hx => ?_
  simp only [decide_eq_true_eq] at hx ⊢
  omega

theorem below_le_length (keys : List Nat) (k : Nat) : below keys k ≤ keys.length :=
  countP_le_length

theorem length_countKeys (rowCount : Nat) (keys : List Nat) :
    (countKeys rowCount keys).length = rowCount + 1 := by
  unfold countKeys
  induction keys using List.reverseRecOn with
  | nil => simp
  | append_singleton keys k ih => simp [ih]

variable {rowCount : Nat}

theorem getElem?_countKeys : ∀ (keys : List Nat) {i : Nat}, i ≤ rowCount →
    (countKeys rowCount keys)[i]? = some (if i = 0 then 0 else keys.count (i - 1)) := by
  intro keys
  induction keys using List.reverseRecOn with
  | nil =>
    intro i hi
    rw [countKeys, foldl_nil, getElem?_replicate_of_lt (by omega)]
    simp
  | append_singleton keys k ih =>
    intro i hi
    rw [countKeys, foldl_append, foldl_cons, foldl_nil, ← countKeys,
      getElem?_modify, ih hi, count_append, count_singleton]
    by_cases h0 : i = 0
    · subst h0; simp
    · by_cases hk : k + 1 = i
      · have : i - 1 = k := by omega
        simp [hk, h0, this]
      · have hne : ¬k = i - 1 := by omega
        simp [hk, h0, hne]

theorem getElem?_prefixSums : ∀ (cs : List Nat) (acc : Nat) {i : Nat}, i < cs.length →
    (prefixSums acc cs)[i]? = some (acc + (cs.take (i + 1)).sum) := by
  intro cs
  induction cs with
  | nil => intro acc i h; simp at h
  | cons c rest ih =>
    intro acc i h
    cases i with
    | zero => simp [prefixSums]
    | succ i =>
      rw [prefixSums, getElem?_cons_succ, ih (acc + c) (by simpa using h), take_succ_cons,
        sum_cons, Nat.add_assoc]

theorem sum_take_countKeys (keys : List Nat) : ∀ {i : Nat}, i ≤ rowCount →
    ((countKeys rowCount keys).take (i + 1)).sum = below keys i := by
  intro i
  induction i with
  | zero =>
    intro hi
    have h0 := getElem?_countKeys keys hi
    rw [take_add_one, h0]
    simp [below]
  | succ i ih =>
    intro hi
    rw [take_add_one, sum_append, ih (by omega), getElem?_countKeys keys hi, below_succ]
    simp

variable {keys : List Nat} {entries : List (Nat × α)}

theorem getD_offsets_scatter {blank : α} {i : Nat} (h : i ≤ rowCount) :
    (scatter rowCount keys entries blank).offsets.getD i 0 = below keys i := by
  have hlen : i < (countKeys rowCount keys).length := by rw [length_countKeys]; omega
  rw [scatter, getD_eq_getElem?_getD, getElem?_prefixSums _ _ hlen, sum_take_countKeys keys h]
  simp

/-- The values of row `k`, in the order they were entered. -/
def valuesAt (entries : List (Nat × α)) (k : Nat) : List α :=
  (entries.filter fun e => e.1 = k).map Prod.snd

theorem valuesAt_append_singleton (entries : List (Nat × α)) (e : Nat × α) (k : Nat) :
    valuesAt (entries ++ [e]) k = valuesAt entries k ++ if e.1 = k then [e.2] else [] := by
  unfold valuesAt
  rw [filter_append, map_append]
  by_cases h : e.1 = k
  · simp [h]
  · simp [h]

theorem mem_valuesAt {k : Nat} {v : α} : v ∈ valuesAt entries k ↔ (k, v) ∈ entries := by
  rw [valuesAt, mem_map]
  constructor
  · rintro ⟨⟨k', v'⟩, hmem, rfl⟩
    rw [mem_filter, decide_eq_true_eq] at hmem
    obtain ⟨hmem, rfl⟩ := hmem
    exact hmem
  · intro h
    exact ⟨(k, v), mem_filter.mpr ⟨h, by simp⟩, rfl⟩

theorem length_valuesAt (entries : List (Nat × α)) (k : Nat) :
    (valuesAt entries k).length = (entries.map Prod.fst).count k := by
  rw [valuesAt, length_map, count_eq_length_filter, filter_map, length_map]
  rfl

/-- The placement invariant. Having entered `done`, row `k`'s cursor stands right after its
    values so far, and they are in place; entering the next one moves one cursor and writes one
    position, which lies in no other row's range because rows do not overlap. -/
theorem place_inv (blank : α) (hkeys : ∀ k ∈ keys, k < rowCount) :
    ∀ (done rest : List (Nat × α)), (done ++ rest).map Prod.fst = keys →
      let st := place done (prefixSums 0 (countKeys rowCount keys),
        List.replicate keys.length blank)
      st.2.length = keys.length ∧
      ∀ k, k < rowCount →
        st.1[k]? = some (below keys k + (valuesAt done k).length) ∧
        ∀ j, j < (valuesAt done k).length → st.2[below keys k + j]? = (valuesAt done k)[j]? := by
  intro done
  induction done using List.reverseRecOn with
  | nil =>
    intro rest _
    refine ⟨by simp [place], fun k hk => ⟨?_, fun j hj => absurd hj (by simp [valuesAt])⟩⟩
    have hlen : k < (countKeys rowCount keys).length := by rw [length_countKeys]; omega
    rw [place, foldl_nil, getElem?_prefixSums _ _ hlen, sum_take_countKeys keys hk.le]
    simp [valuesAt]
  | append_singleton done e ih =>
    intro rest hmap
    rw [← append_cons] at hmap
    obtain ⟨hlen, hinv⟩ := ih (e :: rest) hmap
    have hekey : e.1 < rowCount := hkeys e.1 (by rw [← hmap]; simp)
    -- the rows of `done ++ [e]` still fit their final sizes
    have hroom : ∀ k, (valuesAt (done ++ [e]) k).length ≤ keys.count k := by
      intro k
      rw [length_valuesAt, ← hmap]
      refine List.Sublist.count_le k (List.Sublist.map Prod.fst ?_)
      exact List.Sublist.append_left (singleton_sublist.mpr mem_cons_self) done
    intro st
    have hst : st = ((place done (prefixSums 0 (countKeys rowCount keys),
        List.replicate keys.length blank)).1.modify e.1 (· + 1),
        (place done (prefixSums 0 (countKeys rowCount keys),
          List.replicate keys.length blank)).2.set (below keys e.1 + (valuesAt done e.1).length)
          e.2) := by
      have hcur := (hinv e.1 hekey).1
      simp only [st, place, foldl_append, foldl_cons, foldl_nil] at hcur ⊢
      rw [getD_eq_getElem?_getD, hcur]
      rfl
    rw [hst]
    refine ⟨by simpa using hlen, fun k hk => ⟨?_, ?_⟩⟩
    · rw [getElem?_modify, (hinv k hk).1, valuesAt_append_singleton]
      by_cases h : e.1 = k
      · simp [h]; omega
      · simp [h]
    · intro j hj
      dsimp only
      have hwrite := hroom e.1
      rw [valuesAt_append_singleton, if_pos rfl, length_append, length_singleton] at hwrite
      by_cases hke : e.1 = k
      · subst hke
        rw [valuesAt_append_singleton, if_pos rfl] at hj ⊢
        rw [length_append, length_singleton] at hj
        by_cases hlast : j = (valuesAt done e.1).length
        · subst hlast
          have hin : below keys e.1 + (valuesAt done e.1).length <
              (place done (prefixSums 0 (countKeys rowCount keys),
                List.replicate keys.length blank)).2.length := by
            have h1 := below_succ keys e.1
            have h2 := below_le_length keys (e.1 + 1)
            rw [hlen]; omega
          rw [getElem?_set_self hin]
          simp
        · rw [getElem?_set_ne (by omega), (hinv e.1 hk).2 j (by omega),
            getElem?_append_left (by omega)]
      · rw [valuesAt_append_singleton, if_neg hke, append_nil] at hj ⊢
        have hroomk := hroom k
        rw [valuesAt_append_singleton, if_neg hke, append_nil] at hroomk
        -- the written position is in row `e.1`, the read one in row `k`
        have hne : below keys e.1 + (valuesAt done e.1).length ≠ below keys k + j := by
          rcases Nat.lt_or_gt_of_ne hke with hlt | hgt
          · have h1 := below_succ keys e.1
            have h2 := below_mono keys (show e.1 + 1 ≤ k from hlt)
            omega
          · have h1 := below_succ keys k
            have h2 := below_mono keys (show k + 1 ≤ e.1 from hgt)
            omega
        rw [getElem?_set_ne hne, (hinv k hk).2 j hj]

/-- Reading a scattered row back: the entries with that key, in order. -/
theorem row_scatter {blank : α} (hmap : entries.map Prod.fst = keys)
    (hkeys : ∀ k ∈ keys, k < rowCount) {k : Nat} (hk : k < rowCount) :
    (scatter rowCount keys entries blank).row k = valuesAt entries k := by
  obtain ⟨hlen, hinv⟩ := place_inv blank hkeys entries [] (by simpa using hmap)
  have hcount : (valuesAt entries k).length = keys.count k := by rw [length_valuesAt, hmap]
  refine ext_getElem? fun j => ?_
  rw [row, slice, getD_offsets_scatter hk.le, getD_offsets_scatter (Nat.succ_le_of_lt hk),
    below_succ, Nat.add_sub_cancel_left]
  by_cases hj : j < keys.count k
  · rw [getElem?_take_of_lt hj, getElem?_drop]
    exact (hinv k hk).2 j (by omega)
  · rw [getElem?_take_eq_none (by omega), getElem?_eq_none (by omega)]

end Csr
end Clearra.Lib
