import Clustering.Batch
import Mathlib.Algebra.BigOperators.Group.List.Basic
import Mathlib.Data.List.Basic
import Mathlib.Tactic.Ring

/-!
# Batches put together again

`Batch.cover` cuts a range into consecutive batches without gaps: `consecutive_cover` and
`rowCount_cover`.  A list that is dealt out to such batches is the list again when the pieces are
joined (`flatten_deal`), and dealing commutes with `map` and `zip`.  So a fold that goes batch by
batch, and row by row inside each batch, is the fold over all rows (`foldl_deal`): its order of
steps is that of the rows, whatever the batches are.
-/

namespace Clustering.Batch

variable {β γ S : Type}

/-! ### Consecutive batches -/

/-- The number of rows in a list of batches. -/
def rowCount (bs : List Batch) : ℕ := (bs.map (·.size)).sum

@[simp] theorem rowCount_nil : rowCount [] = 0 := rfl

@[simp] theorem rowCount_cons (b : Batch) (bs : List Batch) :
    rowCount (b :: bs) = b.size + rowCount bs := rfl

/-- The first batch starts at `start`, and every other one where the one before it ends. -/
def Consecutive : ℕ → List Batch → Prop
  | _, [] => True
  | start, b :: bs => b.offset = start ∧ Consecutive (start + b.size) bs

/-- Piece `i` of a range that is cut into pieces of `size` rows. -/
def piece (total size i : ℕ) : Batch := ⟨i * size, min size (total - i * size)⟩

theorem cover_eq_map_piece (total size : ℕ) :
    cover total size = (List.range' 0 ((total + size - 1) / size)).map (piece total size) := by
  rw [cover, List.range_eq_range']
  rfl

/-- A piece that is not the last one is full. -/
theorem piece_size_of_lt {total size i : ℕ} (h : (i + 2) * size < total + size) :
    (piece total size i).size = size := by
  have h2 : (i + 2) * size = i * size + size + size := by ring
  show min size (total - i * size) = size
  omega

theorem consecutive_pieces {total size : ℕ} : ∀ (count i : ℕ),
    (i + count) * size < total + size →
      Consecutive (i * size) ((List.range' i count).map (piece total size))
  | 0, _, _ => trivial
  | 1, _, _ => ⟨rfl, trivial⟩
  | count + 2, i, h => by
    -- only the last batch may be short, so that the next one starts a full batch further on
    have hi : (i + 2) * size < total + size :=
      lt_of_le_of_lt (Nat.mul_le_mul_right size (by omega : i + 2 ≤ i + (count + 2))) h
    refine ⟨rfl, ?_⟩
    rw [piece_size_of_lt hi, ← Nat.succ_mul]
    exact consecutive_pieces (count + 1) (i + 1) (by rwa [Nat.add_right_comm, Nat.add_assoc])

theorem rowCount_pieces {total size : ℕ} : ∀ (count i : ℕ),
    (i + count) * size < total + size →
      rowCount ((List.range' i count).map (piece total size)) =
        min total ((i + count) * size) - i * size
  | 0, i, _ => by
    show 0 = min total (i * size) - i * size
    omega
  | 1, i, h => by
    have h1 : (i + 1) * size = i * size + size := Nat.succ_mul i size
    show min size (total - i * size) + 0 = _
    omega
  | count + 2, i, h => by
    -- of two pieces or more the first one is full, so the next starts a whole size further on
    have hi : (i + 2) * size < total + size :=
      lt_of_le_of_lt (Nat.mul_le_mul_right size (by omega : i + 2 ≤ i + (count + 2))) h
    have hnext : (i + 1 + (count + 1)) * size < total + size := by
      rwa [Nat.add_right_comm, Nat.add_assoc]
    have h1 : (i + 1) * size = i * size + size := Nat.succ_mul i size
    have h2 : (i + 2) * size = i * size + size + size := by ring
    have h3 : (i + 2) * size ≤ (i + (count + 2)) * size := Nat.mul_le_mul_right _ (by omega)
    have h4 : i + 1 + (count + 1) = i + (count + 2) := by omega
    rw [List.range'_succ, List.map_cons, rowCount_cons, piece_size_of_lt hi,
      rowCount_pieces (count + 1) (i + 1) hnext, h4]
    omega

theorem pieces_end (total size : ℕ) :
    size = 0 ∨ (0 + (total + size - 1) / size) * size < total + size := by
  rcases Nat.eq_zero_or_pos size with hs | hs
  · exact Or.inl hs
  · right
    have h := Nat.div_mul_le_self (total + size - 1) size
    rw [Nat.zero_add]
    omega

theorem consecutive_cover (total size : ℕ) : Consecutive 0 (cover total size) := by
  rcases pieces_end total size with rfl | h
  · simp [cover, Consecutive]
  · rw [cover_eq_map_piece]
    simpa using consecutive_pieces _ 0 h

/-- The batches that cover a range have as many rows as the range. -/
theorem rowCount_cover {total size : ℕ} (hs : 0 < size ∨ total = 0) :
    rowCount (cover total size) = total := by
  rcases hs with hs | rfl
  · have h : (0 + (total + size - 1) / size) * size < total + size :=
      (pieces_end total size).resolve_left (by omega)
    have hge : total + size - 1 < ((total + size - 1) / size + 1) * size := by
      rw [Nat.mul_comm]
      exact Nat.lt_mul_div_succ _ hs
    rw [cover_eq_map_piece, rowCount_pieces _ 0 h]
    rw [Nat.succ_mul] at hge
    rw [Nat.zero_add, Nat.zero_mul, Nat.sub_zero]
    omega
  · rcases Nat.eq_zero_or_pos size with rfl | hs
    · rfl
    · have h0 : (0 + size - 1) / size = 0 := Nat.div_eq_of_lt (by omega)
      rw [cover, h0]
      rfl

/-- A batch of a range is not empty, keeps to the size of batches, and lies in the range. -/
theorem of_mem_cover {total size : ℕ} {b : Batch} (h : b ∈ cover total size) :
    0 < b.size ∧ b.size ≤ size ∧ b.offset + b.size ≤ total := by
  rw [cover, List.mem_map] at h
  obtain ⟨i, hi, rfl⟩ := h
  rw [List.mem_range] at hi
  have hs : 0 < size := by
    rcases Nat.eq_zero_or_pos size with rfl | hs
    · rw [Nat.div_zero] at hi
      exact absurd hi (Nat.not_lt_zero _)
    · exact hs
  have hstart : (i + 1) * size ≤ total + size - 1 :=
    (Nat.mul_le_mul_right size hi).trans (Nat.div_mul_le_self _ _)
  rw [Nat.succ_mul] at hstart
  dsimp only
  omega

/-! ### Dealing -/

/-- Joined again, the pieces are the part of the list that the batches reach. -/
theorem flatten_deal_eq_take (bs : List Batch) (xs : List β) :
    (deal bs xs).flatten = xs.take (rowCount bs) := by
  induction bs generalizing xs with
  | nil => simp [deal]
  | cons b bs ih => rw [deal, List.flatten_cons, ih, rowCount_cons, List.take_add]

/-- Joined again, the pieces of a list that the batches cover are the list. -/
theorem flatten_deal {bs : List Batch} {xs : List β} (h : xs.length ≤ rowCount bs) :
    (deal bs xs).flatten = xs := by
  rw [flatten_deal_eq_take, List.take_of_length_le h]

theorem mem_of_mem_deal {bs : List Batch} {xs piece : List β} {v : β} (h : piece ∈ deal bs xs)
    (hv : v ∈ piece) : v ∈ xs := by
  have hmem : v ∈ (deal bs xs).flatten := List.mem_flatten.mpr ⟨piece, h, hv⟩
  rw [flatten_deal_eq_take] at hmem
  exact List.mem_of_mem_take hmem

/-- Pieces of the sizes of the batches are what their join deals out to. -/
theorem deal_flatten {bs : List Batch} {pieces : List (List β)}
    (h : pieces.map List.length = bs.map (·.size)) : deal bs pieces.flatten = pieces := by
  induction bs generalizing pieces with
  | nil => simpa [deal, eq_comm] using h
  | cons b bs ih =>
    obtain ⟨p, ps, rfl⟩ : ∃ p ps, pieces = p :: ps :=
      List.exists_cons_of_ne_nil (by rintro rfl; simp at h)
    simp only [List.map_cons, List.cons.injEq] at h
    rw [deal, List.flatten_cons, ← h.1, List.take_left, List.drop_left, ih h.2]

theorem deal_map (f : β → γ) (bs : List Batch) (xs : List β) :
    deal bs (xs.map f) = (deal bs xs).map (List.map f) := by
  induction bs generalizing xs with
  | nil => rfl
  | cons b bs ih => simp only [deal, List.map_cons, List.map_take, List.map_drop, ← ih]

theorem deal_zip (bs : List Batch) (xs : List β) (ys : List γ) :
    deal bs (xs.zip ys) = ((deal bs xs).zip (deal bs ys)).map fun p => p.1.zip p.2 := by
  induction bs generalizing xs ys with
  | nil => rfl
  | cons b bs ih =>
    simp only [deal, List.zip_cons_cons, List.map_cons, ← ih]
    simp only [List.zip, List.take_zipWith, List.drop_zipWith]

theorem deal_replicate (bs : List Batch) (v : β) :
    deal bs (List.replicate (rowCount bs) v) = bs.map fun b => List.replicate b.size v := by
  induction bs with
  | nil => rfl
  | cons b bs ih =>
    rw [deal, rowCount_cons, List.take_replicate, List.drop_replicate, Nat.min_eq_left (by omega),
      Nat.add_sub_cancel_left, ih, List.map_cons]

/-- A piece has the size of its batch if there are enough elements. -/
theorem map_length_deal {bs : List Batch} {xs : List β} (h : rowCount bs ≤ xs.length) :
    (deal bs xs).map List.length = bs.map (·.size) := by
  induction bs generalizing xs with
  | nil => rfl
  | cons b bs ih =>
    rw [rowCount_cons] at h
    rw [deal, List.map_cons, List.map_cons, List.length_take,
      ih (by rw [List.length_drop]; omega), Nat.min_eq_left (by omega)]

/-! ### Folds -/

/-- A fold over the pieces, element by element, is the fold over the list. -/
theorem foldl_deal (f : S → β → S) (s : S) {bs : List Batch} {xs : List β}
    (h : xs.length ≤ rowCount bs) :
    (deal bs xs).foldl (fun s p => p.foldl f s) s = xs.foldl f s := by
  rw [← List.foldl_flatten, flatten_deal h]

/-- A fold over the pieces of two lists side by side is the fold over the pairs. -/
theorem foldl_deal_zip (f : S → β × γ → S) (s : S) {bs : List Batch} {xs : List β} {ys : List γ}
    (h : ys.length ≤ rowCount bs) :
    ((deal bs xs).zip (deal bs ys)).foldl (fun s p => (p.1.zip p.2).foldl f s) s =
      (xs.zip ys).foldl f s := by
  have hlen : (xs.zip ys).length ≤ rowCount bs := by
    rw [List.length_zip]
    omega
  rw [← foldl_deal f s hlen, deal_zip, List.foldl_map]

end Clustering.Batch
