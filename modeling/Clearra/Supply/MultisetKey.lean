import Clearra.Domain.Piece

/-!
# `PieceMultisetKey` (`clearra-supply`, `pattern_universe/piece_multiset_group.rs`)

Seven `u8` counters and a cached `u8` total, all of them *saturating*. The saturation is real:
two different multisets with 300 and 301 copies of `I` have the same key. It is kept in the
model, and the exactness results below carry the bound under which it does not bite — 255 pieces
in all — where they need it, instead of the key being idealised to a multiset.
-/

namespace Clearra.Supply

open List Function

/-- `u8::saturating_add`. -/
def saturatingAdd8 (a b : Nat) : Nat := min (a + b) 255

@[ext] structure PieceMultisetKey where
  counts : PieceKind → Nat
  totalCount : Nat
  deriving DecidableEq

variable {pieces : List PieceKind}

namespace PieceMultisetKey

/-- `PieceMultisetKey::default()`: the derived all-zero key. -/
def empty : PieceMultisetKey := ⟨fun _ => 0, 0⟩

/-- `count(piece)`. -/
def count (k : PieceMultisetKey) (p : PieceKind) : Nat := k.counts p

def push (k : PieceMultisetKey) (p : PieceKind) : PieceMultisetKey :=
  ⟨Function.update k.counts p (saturatingAdd8 (k.counts p) 1), saturatingAdd8 k.totalCount 1⟩

/-- `remove(&mut self, piece) -> bool`: `none` is the source's `false`, on which the key is left
    as it was and the caller drops it. -/
def remove (k : PieceMultisetKey) (p : PieceKind) : Option PieceMultisetKey :=
  if k.counts p = 0 then none
  else some ⟨Function.update k.counts p (k.counts p - 1), k.totalCount - 1⟩

/-- `from_pieces(pieces)`. -/
def fromPieces (pieces : List PieceKind) : PieceMultisetKey := pieces.foldl push empty

/-- `from_counts(counts)`: the total is the saturating sum, in array order. -/
def fromCounts (counts : PieceKind → Nat) : PieceMultisetKey :=
  ⟨counts, (PieceKind.standardTetrominoes.map counts).foldl saturatingAdd8 0⟩

/-- The fields in the order the derived `Ord` compares them. -/
def ordKey (k : PieceMultisetKey) : List Nat :=
  PieceKind.standardTetrominoes.map k.counts ++ [k.totalCount]

theorem ordKey_injective : Function.Injective ordKey := by
  intro a b h
  simp only [ordKey, PieceKind.standardTetrominoes, map_cons, map_nil, cons_append,
    nil_append, List.cons.injEq, and_true] at h
  obtain ⟨h0, h1, h2, h3, h4, h5, h6, ht⟩ := h
  ext p
  · cases p <;> assumption
  · exact ht

instance : LinearOrder PieceMultisetKey := LinearOrder.lift' ordKey ordKey_injective

/-! ## A key is its multiset, cut off at 255

`fromPieces` is a left fold of a saturating push. As long as the list has at most 255 pieces no
push saturates, and then the key *is* the count function — so keys of two short lists agree
exactly when the lists are permutations of each other. -/

theorem counts_push (k : PieceMultisetKey) (p q : PieceKind) :
    (k.push q).counts p = if p = q then min (k.counts p + 1) 255 else k.counts p := by
  simp only [push, update_apply, saturatingAdd8]
  split
  · rename_i h
    rw [h]
  · rfl

theorem counts_foldl_push (p : PieceKind) : ∀ (pieces : List PieceKind) (k : PieceMultisetKey),
    k.counts p ≤ 255 → (pieces.foldl push k).counts p = min (k.counts p + pieces.count p) 255 := by
  intro pieces
  induction pieces with
  | nil => intro k hk; simpa using hk
  | cons q rest ih =>
    intro k hk
    have hpush := counts_push k p q
    rw [foldl_cons]
    by_cases hp : p = q
    · rw [if_pos hp] at hpush
      subst hp
      rw [ih _ (by omega), hpush, count_cons_self]
      omega
    · rw [if_neg hp] at hpush
      rw [ih _ (by omega), hpush, count_cons_of_ne (Ne.symm hp)]

theorem totalCount_foldl_push : ∀ (pieces : List PieceKind) (k : PieceMultisetKey),
    k.totalCount ≤ 255 →
      (pieces.foldl push k).totalCount = min (k.totalCount + pieces.length) 255 := by
  intro pieces
  induction pieces with
  | nil => intro k hk; simpa using hk
  | cons q rest ih =>
    intro k hk
    have hpush : (k.push q).totalCount = min (k.totalCount + 1) 255 := rfl
    rw [foldl_cons, ih _ (by omega), hpush, length_cons]
    omega

theorem counts_fromPieces_min (pieces : List PieceKind) (p : PieceKind) :
    (fromPieces pieces).counts p = min (pieces.count p) 255 := by
  have := counts_foldl_push p pieces empty (by simp [empty])
  simpa [fromPieces, empty] using this

theorem totalCount_fromPieces_min (pieces : List PieceKind) :
    (fromPieces pieces).totalCount = min pieces.length 255 := by
  have := totalCount_foldl_push pieces empty (by simp [empty])
  simpa [fromPieces, empty] using this

theorem counts_fromPieces (h : pieces.length ≤ 255) (p : PieceKind) :
    (fromPieces pieces).counts p = pieces.count p := by
  rw [counts_fromPieces_min]
  exact Nat.min_eq_left (count_le_length.trans h)

theorem totalCount_fromPieces (h : pieces.length ≤ 255) :
    (fromPieces pieces).totalCount = pieces.length := by
  rw [totalCount_fromPieces_min]
  exact Nat.min_eq_left h

theorem fromPieces_eq_iff_perm {xs ys : List PieceKind} (hx : xs.length ≤ 255)
    (hy : ys.length ≤ 255) : fromPieces xs = fromPieces ys ↔ xs.Perm ys := by
  constructor
  · intro h
    rw [perm_iff_count]
    intro p
    rw [← counts_fromPieces hx, ← counts_fromPieces hy, h]
  · intro h
    ext p
    · rw [counts_fromPieces hx, counts_fromPieces hy, h.count_eq]
    · rw [totalCount_fromPieces hx, totalCount_fromPieces hy, h.length_eq]

theorem push_comm (k : PieceMultisetKey) (p q : PieceKind) :
    (k.push p).push q = (k.push q).push p := by
  by_cases hpq : p = q
  · rw [hpq]
  · ext r
    · simp only [push, update_of_ne (Ne.symm hpq), update_of_ne hpq, update_comm hpq]
    · rfl

theorem fromPieces_of_perm {xs ys : List PieceKind} (h : xs.Perm ys) :
    fromPieces xs = fromPieces ys :=
  have : RightCommutative push := ⟨push_comm⟩
  h.foldl_eq empty

theorem push_fromPieces (pieces : List PieceKind) (p : PieceKind) :
    (fromPieces pieces).push p = fromPieces (pieces ++ [p]) := by
  simp [fromPieces]

theorem remove_fromPieces (h : pieces.length ≤ 255) (p : PieceKind) : (fromPieces pieces).remove p =
      if p ∈ pieces then some (fromPieces (pieces.erase p)) else none := by
  have herase : (pieces.erase p).length ≤ 255 := le_trans length_erase_le h
  by_cases hp : p ∈ pieces
  · have hpos : (fromPieces pieces).counts p ≠ 0 := by
      rw [counts_fromPieces h]
      exact (count_pos_iff.mpr hp).ne'
    rw [if_pos hp, remove, if_neg hpos]
    congr 1
    ext q
    · rw [counts_fromPieces herase]
      dsimp only
      by_cases hq : q = p
      · subst hq
        rw [update_self, counts_fromPieces h, count_erase_self]
      · rw [update_of_ne hq, counts_fromPieces h, count_erase_of_ne hq]
    · rw [totalCount_fromPieces herase, totalCount_fromPieces h, length_erase_of_mem hp]
  · have hzero : (fromPieces pieces).counts p = 0 := by
      rw [counts_fromPieces h]
      exact count_eq_zero.mpr hp
    rw [if_neg hp, remove, if_pos hzero]

end PieceMultisetKey
end Clearra.Supply
