import Mathlib
import Clustering.Batch.Walk
import Clustering.Proofs.Batches

/-!
# Walks visit the batches of a range

The position of a walk is a word, and so is the sum that moves it.  As long as the total is at most
`2 ^ 63` no sum wraps round: either the walk is at its start, or it has passed a whole batch, which
is then shorter than the total (`BatchWalk.toNat_next`).  So after `i` steps a walk stands where
batch `i` of `Batch.cover` starts, and `visit_eq` gives what it visits and where it stops.

`visits_partition`: a walk ends, and its batches cut the range into consecutive pieces.
`count_maxBatch`: the largest batch is what `maxBatch` computes, and `count` is the number of
batches unless the sum in it wraps round; then there is one batch, and it counts none
(`count_unbounded`).
-/

namespace Clustering

namespace Batch

/-- A batch in words. -/
def ofWords (b : UInt64 × UInt64) : Batch := ⟨b.1.toNat, b.2.toNat⟩

/-- The rows of a batch. -/
def rows (b : Batch) : List ℕ := List.range' b.offset b.size

/-- Consecutive batches list the rows one after the other. -/
theorem flatMap_rows {start : ℕ} {bs : List Batch} (h : Consecutive start bs) :
    bs.flatMap rows = List.range' start (rowCount bs) := by
  induction bs generalizing start with
  | nil => rfl
  | cons b bs ih =>
    obtain ⟨rfl, hrest⟩ := h
    rw [List.flatMap_cons, ih hrest, rowCount_cons, rows, List.range'_append_1]

@[simp] theorem length_cover (total size : ℕ) :
    (cover total size).length = (total + size - 1) / size := by
  simp [cover]

/-- Batch `i` of a range exists if the range goes on where it would start. -/
theorem lt_length_cover {total size i : ℕ} (hs : 0 < size) :
    i < (cover total size).length ↔ i * size < total := by
  rw [length_cover, ← Nat.succ_le_iff, Nat.le_div_iff_mul_le hs, Nat.succ_mul]
  omega

theorem getElem_cover {total size i : ℕ} (h : i < (cover total size).length) :
    (cover total size)[i] = piece total size i := by
  simp [cover, piece]

/-- Every batch but the last one is full. -/
theorem size_of_mem_dropLast_cover {total size : ℕ} (hs : 0 < size) {b : Batch}
    (h : b ∈ (cover total size).dropLast) : b.size = size := by
  obtain ⟨i, hi, rfl⟩ := List.mem_iff_getElem.mp h
  rw [List.length_dropLast] at hi
  have hnext : (i + 1) * size < total := (lt_length_cover hs).mp (by omega)
  rw [List.getElem_dropLast, getElem_cover]
  refine piece_size_of_lt ?_
  rw [Nat.succ_mul (i + 1)]
  omega

end Batch

namespace BatchWalk

variable {r : BatchWalk}

theorem batch_pos (r : BatchWalk) : 0 < r.batch.toNat := by
  refine Nat.pos_of_ne_zero fun hzero => r.batch_ne_zero ?_
  exact UInt64.toNat_inj.mp hzero

/-! ### One step -/

/-- From the start of a batch the walk moves to the start of the next one, or to the end. -/
theorem toNat_next (h : r.total.toNat ≤ 2 ^ 63) {i : ℕ} {pos : UInt64}
    (hpos : pos.toNat = i * r.batch.toNat) (hlt : pos.toNat < r.total.toNat) :
    (r.next pos).toNat = min r.total.toNat ((i + 1) * r.batch.toNat) := by
  have hbatch := r.batch.toNat_lt
  -- past the start, a batch is not longer than the way that lies behind
  have hsum : pos.toNat + r.batch.toNat < 2 ^ 64 := by
    rcases Nat.eq_zero_or_pos i with rfl | hi
    · omega
    · have hle := Nat.le_mul_of_pos_left r.batch.toNat hi
      omega
  rw [next, UInt64.toNat_min, UInt64.toNat_add, Nat.mod_eq_of_lt hsum, hpos, Nat.succ_mul]

theorem ofWords_batchAt {i : ℕ} {pos : UInt64} (hpos : pos.toNat = i * r.batch.toNat)
    (hlt : pos.toNat < r.total.toNat) :
    Batch.ofWords (r.batchAt pos) = Batch.piece r.total.toNat r.batch.toNat i := by
  rw [batchAt, Batch.ofWords, Batch.piece, UInt64.toNat_min,
    UInt64.toNat_sub_of_le _ _ (UInt64.le_iff_toNat_le.mpr hlt.le), hpos]

/-! ### Whole walks -/

/-- The batches of the range that a walk goes through. -/
def cover (r : BatchWalk) : List Batch := Batch.cover r.total.toNat r.batch.toNat

theorem lt_length_cover {i : ℕ} : i < r.cover.length ↔ i * r.batch.toNat < r.total.toNat :=
  Batch.lt_length_cover r.batch_pos

theorem getElem_cover {i : ℕ} (h : i < r.cover.length) :
    r.cover[i] = Batch.piece r.total.toNat r.batch.toNat i :=
  Batch.getElem_cover h

/-- From where batch `i` starts, a walk visits the batches from `i` on, as many as the limit
allows. -/
theorem visit_eq (h : r.total.toNat ≤ 2 ^ 63) : ∀ (limit i : ℕ) (pos : UInt64),
    pos.toNat = min r.total.toNat (i * r.batch.toNat) →
      (r.visit limit pos).1.map Batch.ofWords = (r.cover.drop i).take limit ∧
        (r.visit limit pos).2.toNat = min r.total.toNat ((i + limit) * r.batch.toNat)
  | 0, i, pos, hpos => ⟨rfl, hpos⟩
  | limit + 1, i, pos, hpos => by
    rw [visit]
    by_cases hend : pos = r.total
    · -- the cursor stands at the end: no batch is left, and moving on leaves it there
      subst hend
      have hi : r.total.toNat ≤ i * r.batch.toNat := by omega
      have hlength : r.cover.length ≤ i :=
        not_lt.mp fun hlt => absurd (lt_length_cover.mp hlt) (not_lt.mpr hi)
      have hmul : i * r.batch.toNat ≤ (i + (limit + 1)) * r.batch.toNat :=
        Nat.mul_le_mul_right _ (Nat.le_add_right _ _)
      rw [if_pos rfl, List.drop_eq_nil_of_le hlength]
      exact ⟨rfl, (min_eq_left (hi.trans hmul)).symm⟩
    · have hne : pos.toNat ≠ r.total.toNat := fun heq => hend (UInt64.toNat_inj.mp heq)
      have hstart : pos.toNat = i * r.batch.toNat := by omega
      have hlt : pos.toNat < r.total.toNat := by omega
      have hmem : i < r.cover.length := lt_length_cover.mpr (by omega)
      obtain ⟨hvisited, hlast⟩ := visit_eq h limit (i + 1) (r.next pos) (toNat_next h hstart hlt)
      rw [if_neg hend]
      constructor
      · show Batch.ofWords (r.batchAt pos) :: (r.visit limit (r.next pos)).1.map _ = _
        rw [hvisited, ofWords_batchAt hstart hlt, List.drop_eq_getElem_cons hmem,
          List.take_succ_cons]
        exact congrArg (· :: _) (getElem_cover hmem).symm
      · show (r.visit limit (r.next pos)).2.toNat = _
        rw [hlast, Nat.add_right_comm, Nat.add_assoc]

/-- The walk from the start ends after as many steps as there are batches, and has then visited
these. -/
structure Visits (r : BatchWalk) (bs : List Batch) : Prop where
  ended : ∀ limit, (r.visit limit 0).2 = r.total ↔ bs.length ≤ limit
  batches : ∀ limit, bs.length ≤ limit → (r.visit limit 0).1.map Batch.ofWords = bs

theorem visits_cover (h : r.total.toNat ≤ 2 ^ 63) : r.Visits r.cover := by
  have hvisit := fun limit => visit_eq h limit 0 0 (by simp)
  refine ⟨fun limit => ?_, fun limit hlimit => ?_⟩
  · rw [← UInt64.toNat_inj, (hvisit limit).2, Nat.zero_add, ← not_lt, lt_length_cover]
    omega
  · rw [(hvisit limit).1, List.drop_zero, List.take_of_length_le hlimit]

/-- A walk through up to `2 ^ 63` rows ends.  Its batches are consecutive from the first row on,
none is empty or larger than the size that was asked for, all but the last one have this size, and
together they hold each row of the range once, in order. -/
theorem visits_partition (r : BatchWalk) (h : r.total.toNat ≤ 2 ^ 63) :
    new? r.total r.batch = .ok r ∧
      ∃ bs, r.Visits bs ∧ Batch.Consecutive 0 bs ∧
        (∀ b ∈ bs, 1 ≤ b.size ∧ b.size ≤ min r.batch.toNat r.total.toNat) ∧
        (∀ b ∈ bs.dropLast, b.size = r.batch.toNat) ∧
        bs.flatMap Batch.rows = List.range r.total.toNat ∧
        (r.total = 0 → bs = []) := by
  refine ⟨dif_neg r.batch_ne_zero, r.cover, visits_cover h, Batch.consecutive_cover _ _, ?_,
    fun b hb => Batch.size_of_mem_dropLast_cover r.batch_pos hb, ?_, fun hzero => ?_⟩
  · intro b hb
    obtain ⟨hpos, hsize, hend⟩ := Batch.of_mem_cover hb
    omega
  · rw [cover, Batch.flatMap_rows (Batch.consecutive_cover _ _),
      Batch.rowCount_cover (Or.inl r.batch_pos), List.range_eq_range']
  · have hnone : ¬ 0 < r.cover.length := by
      rw [lt_length_cover, hzero]
      simp
    exact List.eq_nil_of_length_eq_zero (by omega)

/-- Half of all words, in batches of a little more than a quarter. -/
def halfway : BatchWalk := ⟨0x8000_0000_0000_0000, 0x4000_0000_0000_0001, by decide⟩

/-- The walk ends with a batch that is short of the size by two. -/
theorem visits_partition_halfway :
    halfway.total.toNat ≤ 2 ^ 63 ∧
      ∃ bs, halfway.Visits bs ∧ bs.flatMap Batch.rows = List.range (2 ^ 63) ∧
        bs = [⟨0, 2 ^ 62 + 1⟩, ⟨2 ^ 62 + 1, 2 ^ 62 - 1⟩] := by
  have htotal : halfway.total.toNat ≤ 2 ^ 63 := by decide
  obtain ⟨-, bs, hbs, -, -, -, hrows, -⟩ := visits_partition halfway htotal
  refine ⟨htotal, bs, hbs, hrows, ?_⟩
  have hlength : bs.length ≤ 2 := (hbs.ended 2).mp (by decide)
  rw [← hbs.batches 2 hlength]
  decide

/-! ### Counts in words -/

/-- Short of the wrap the count is the number of batches; where its sum wraps round there is one
batch, and the count is zero. -/
theorem toNat_count (h : r.total.toNat ≤ 2 ^ 63) :
    r.count.toNat =
      if r.total.toNat + r.batch.toNat ≤ 2 ^ 64 then r.cover.length else 0 := by
  have hpos := r.batch_pos
  have hbatch := r.batch.toNat_lt
  have hsum : (r.total + r.batch - 1).toNat = (r.total.toNat + r.batch.toNat - 1) % 2 ^ 64 := by
    rw [UInt64.toNat_sub, UInt64.toNat_add, UInt64.toNat_one]
    omega
  rw [count, UInt64.toNat_div, hsum, cover, Batch.length_cover]
  split_ifs with hwrap
  · rw [Nat.mod_eq_of_lt (by omega)]
  · exact Nat.div_eq_of_lt (by omega)

/-- A batch that is not shorter than the range is the only one, and has the size of the range. -/
theorem cover_eq_singleton (hpos : 0 < r.total.toNat) (hle : r.total.toNat ≤ r.batch.toNat) :
    r.cover = [⟨0, r.total.toNat⟩] := by
  have hone : r.cover.length = 1 := by
    rw [cover, Batch.length_cover]
    exact Nat.div_eq_of_lt_le (by omega) (by omega)
  obtain ⟨b, hb⟩ := List.length_eq_one_iff.mp hone
  have hrows : Batch.rowCount r.cover = r.total.toNat := Batch.rowCount_cover (Or.inl r.batch_pos)
  have hfirst : Batch.Consecutive 0 r.cover := Batch.consecutive_cover _ _
  rw [hb] at hrows hfirst
  obtain ⟨offset, size⟩ := b
  obtain rfl : offset = 0 := hfirst.1
  obtain rfl : size = r.total.toNat := hrows
  exact hb

/-- No batch is larger than the first one, which `maxBatch` computes. -/
theorem isGreatest_maxBatch (hpos : 0 < r.total.toNat) :
    IsGreatest {size | ∃ b ∈ r.cover, b.size = size} r.maxBatch.toNat := by
  have hfirst : 0 < r.cover.length := lt_length_cover.mpr (by omega)
  rw [maxBatch, UInt64.toNat_min]
  constructor
  · refine ⟨r.cover[0], List.getElem_mem hfirst, ?_⟩
    rw [getElem_cover hfirst, Batch.piece, Nat.zero_mul, Nat.sub_zero]
  · rintro _ ⟨b, hb, rfl⟩
    obtain ⟨-, hsize, hend⟩ := Batch.of_mem_cover hb
    omega

/-- What is computed of a walk through up to `2 ^ 63` rows.  The count is the number of its batches
if total and size together are not beyond the number of words; otherwise one batch holds the whole
range, and the count is zero.  The largest size is that of a largest batch, or zero if there is
none. -/
theorem count_maxBatch (r : BatchWalk) (h : r.total.toNat ≤ 2 ^ 63) :
    ∃ bs, r.Visits bs ∧
      (r.total.toNat + r.batch.toNat ≤ 2 ^ 64 → r.count.toNat = bs.length) ∧
      (2 ^ 64 < r.total.toNat + r.batch.toNat → r.count = 0 ∧ bs = [⟨0, r.total.toNat⟩]) ∧
      (bs = [] → r.maxBatch = 0) ∧
      (bs ≠ [] → IsGreatest {size | ∃ b ∈ bs, b.size = size} r.maxBatch.toNat) := by
  have hbatch := r.batch.toNat_lt
  have hcount := toNat_count h
  refine ⟨r.cover, visits_cover h, fun hfits => ?_, fun hwrap => ⟨?_, ?_⟩, fun hnil => ?_,
    fun hne => isGreatest_maxBatch ?_⟩
  · rwa [if_pos hfits] at hcount
  · rw [if_neg (by omega)] at hcount
    exact UInt64.toNat_inj.mp hcount
  · -- the sum wraps only if one batch holds every row, as the total is at most half the range
    exact cover_eq_singleton (by omega) (by omega)
  · have hzero : ¬ 0 * r.batch.toNat < r.total.toNat := by
      rw [← lt_length_cover, hnil]
      exact Nat.lt_irrefl 0
    rw [← UInt64.toNat_inj, maxBatch, UInt64.toNat_min, UInt64.toNat_zero]
    omega
  · have hlength := lt_length_cover.mp (List.length_pos_iff.mpr hne)
    omega

/-- Ten rows, in a batch of any size. -/
def unbounded : BatchWalk := ⟨10, 0xffff_ffff_ffff_ffff, by decide⟩

/-- The count is not always the number of batches: of the one batch of `unbounded` it says that
there is none. -/
theorem count_unbounded :
    ¬ ∀ r : BatchWalk, r.total.toNat ≤ 2 ^ 63 → ∀ bs, r.Visits bs →
      r.count.toNat = bs.length ∧ (bs = [] → r.maxBatch = 0) ∧
        (bs ≠ [] → IsGreatest {size | ∃ b ∈ bs, b.size = size} r.maxBatch.toNat) := by
  intro hall
  have htotal : unbounded.total.toNat ≤ 2 ^ 63 := by decide
  obtain ⟨hcount, -⟩ := hall unbounded htotal _ (visits_cover htotal)
  revert hcount
  decide

/-- The count of the two batches of `halfway` is right, and that of `unbounded` is not. -/
theorem count_maxBatch_wrapped :
    (∃ bs, halfway.Visits bs ∧ halfway.count.toNat = bs.length ∧ halfway.count = 2) ∧
      ∃ bs, unbounded.Visits bs ∧ unbounded.count = 0 ∧ bs = [⟨0, 10⟩] ∧
        IsGreatest {size | ∃ b ∈ bs, b.size = size} 10 := by
  obtain ⟨bs, hbs, hcount, -⟩ := count_maxBatch halfway (by decide)
  obtain ⟨bs', hbs', -, hwrap, -, hgreatest⟩ := count_maxBatch unbounded (by decide)
  obtain ⟨hzero, hsingle⟩ := hwrap (by decide)
  refine ⟨⟨bs, hbs, hcount (by decide), by decide⟩, bs', hbs', hzero, hsingle, hgreatest ?_⟩
  rw [hsingle]
  exact List.cons_ne_nil _ _

end BatchWalk

end Clustering
