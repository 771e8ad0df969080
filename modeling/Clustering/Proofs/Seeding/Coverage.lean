import Clustering.Proofs.FirstLeast
import Clustering.Proofs.Seeding.Yields
import Mathlib.Data.Finset.Card
import Mathlib.Data.List.Perm.Subperm
import Mathlib.Order.Nat

/-!
# Drawing every row

Where no fewer rows are drawn than there are, every row is among them.  Floyd's method picks an
index that is picked already only under the name of a larger one, so that its picks are distinct
(`nodup_floydFrom`), and padding draws unused rows as long as there are any
(`Seeding.yields_new_pad`).  Distinct indices that are as many as the rows are all of them.

A list into which something new of a set goes as long as the set is not exhausted
(`NewWhileMissing`) has as many of its members as there are places for
(`NewWhileMissing.card_inter`).
-/

namespace Clustering

/-! ### Lists that grow at their end -/

section EachAfter

variable {β γ : Type} {P : List β → β → Prop} {vs : List β} {v : β}

/-- Each member of the list satisfies `P` after the members before it. -/
def EachAfter (P : List β → β → Prop) (vs : List β) : Prop :=
  ∀ (p : ℕ) (v : β), vs[p]? = some v → P (vs.take p) v

theorem eachAfter_nil : EachAfter P [] := nofun

theorem eachAfter_concat : EachAfter P (vs ++ [v]) ↔ EachAfter P vs ∧ P vs v := by
  constructor
  · intro h
    refine ⟨fun p u hp => ?_, ?_⟩
    · have hlt := (List.getElem?_eq_some_iff.mp hp).1
      have hu := h p u (by rwa [List.getElem?_append_left hlt])
      rwa [List.take_append_of_le_length hlt.le] at hu
    · have hv := h vs.length v List.getElem?_concat_length
      rwa [List.take_left] at hv
  · rintro ⟨h, hv⟩ p u hp
    rcases getElem?_concat hp with hp | ⟨rfl, rfl⟩
    · have hlt := (List.getElem?_eq_some_iff.mp hp).1
      rw [List.take_append_of_le_length hlt.le]
      exact h p u hp
    · rwa [List.take_left]

theorem eachAfter_singleton : EachAfter P [v] ↔ P [] v := by
  show EachAfter P ([] ++ [v]) ↔ P [] v
  rw [eachAfter_concat, and_iff_right eachAfter_nil]

theorem eachAfter_of_nodup (h : vs.Nodup) : EachAfter (fun before v => v ∉ before) vs := by
  intro p v hp hmem
  obtain ⟨hlt, rfl⟩ := List.getElem?_eq_some_iff.mp hp
  obtain ⟨q, hq, heq⟩ := List.mem_iff_getElem.mp hmem
  rw [List.length_take] at hq
  rw [List.getElem_take] at heq
  have hqp : q = p := h.getElem_inj_iff.mp heq
  omega

theorem EachAfter.map {Q : List γ → γ → Prop} {f : β → γ} (h : EachAfter P vs)
    (hPQ : ∀ before, ∀ v ∈ vs, P before v → Q (before.map f) (f v)) : EachAfter Q (vs.map f) := by
  intro p u hp
  rw [List.getElem?_map, Option.map_eq_some_iff] at hp
  obtain ⟨v, hv, rfl⟩ := hp
  rw [← List.map_take]
  exact hPQ _ v (List.mem_of_getElem? hv) (h p v hv)

end EachAfter

section NewWhileMissing

variable {β : Type} {T : Finset β} {vs : List β} {v : β}

/-- As long as a member of the set is missing before a place, a new member stands there. -/
def NewWhileMissing (T : Finset β) : List β → Prop :=
  EachAfter fun before v => (∃ t ∈ T, t ∉ before) → v ∈ T ∧ v ∉ before

namespace NewWhileMissing

theorem of_nodup (h : vs.Nodup) (hT : ∀ v ∈ vs, v ∈ T) : NewWhileMissing T vs :=
  fun p v hp _ => ⟨hT v (List.mem_of_getElem? hp), eachAfter_of_nodup h p v hp⟩

theorem concat (h : NewWhileMissing T vs) (hv : (∃ t ∈ T, t ∉ vs) → v ∈ T ∧ v ∉ vs) :
    NewWhileMissing T (vs ++ [v]) :=
  eachAfter_concat.mpr ⟨h, hv⟩

variable [DecidableEq β]

/-- Such a list has as many members of the set as there are places for. -/
theorem card_inter (h : NewWhileMissing T vs) :
    (vs.toFinset ∩ T).card = min vs.length T.card := by
  induction vs using List.reverseRecOn with
  | nil => simp
  | append_singleton vs v ih =>
    obtain ⟨hbefore, hv⟩ := eachAfter_concat.mp h
    have hcard := ih hbefore
    have hinsert : (vs ++ [v]).toFinset = insert v vs.toFinset := by
      rw [List.toFinset_append, Finset.union_comm]
      rfl
    rw [hinsert, List.length_append, List.length_singleton]
    by_cases hmissing : ∃ t ∈ T, t ∉ vs
    · obtain ⟨hmem, hnew⟩ := hv hmissing
      obtain ⟨t, ht, hout⟩ := hmissing
      -- an element is still missing, so the count is below that of `T` and can grow by one
      have hless : (vs.toFinset ∩ T).card < T.card := by
        refine Finset.card_lt_card ⟨Finset.inter_subset_right, fun hsub => hout ?_⟩
        exact List.mem_toFinset.mp (Finset.mem_inter.mp (hsub ht)).1
      have hfresh : v ∉ vs.toFinset ∩ T := fun hv =>
        hnew (List.mem_toFinset.mp (Finset.mem_inter.mp hv).1)
      rw [Finset.insert_inter_of_mem hmem, Finset.card_insert_of_notMem hfresh]
      omega
    · have hall : T ⊆ vs.toFinset := by
        intro t ht
        by_contra hout
        exact hmissing ⟨t, ht, fun hmem => hout (List.mem_toFinset.mpr hmem)⟩
      rw [Finset.inter_eq_right.mpr hall] at hcard
      rw [Finset.inter_eq_right.mpr (hall.trans (Finset.subset_insert _ _))]
      omega

theorem card_toFinset (h : NewWhileMissing T vs) (hT : ∀ v ∈ vs, v ∈ T) :
    vs.toFinset.card = min vs.length T.card := by
  have hsub : vs.toFinset ⊆ T := fun v hv => hT v (List.mem_toFinset.mp hv)
  rw [← h.card_inter, Finset.inter_eq_left.mpr hsub]

omit [DecidableEq β] in
/-- A list with a place for every member has all of them. -/
theorem mem_of_card_le (h : NewWhileMissing T vs) (hlen : T.card ≤ vs.length) {t : β}
    (ht : t ∈ T) : t ∈ vs := by
  classical
  have hall : vs.toFinset ∩ T = T := by
    refine Finset.eq_of_subset_of_card_le Finset.inter_subset_right ?_
    rw [h.card_inter]
    omega
  rw [← hall] at ht
  exact List.mem_toFinset.mp (Finset.mem_inter.mp ht).1

end NewWhileMissing

end NewWhileMissing

/-! ### Row indices -/

/-- Distinct indices of `n` rows, as many as the rows, are all of them. -/
theorem mem_of_nodup {n i : ℕ} {is : List ℕ} (hnodup : is.Nodup) (hlt : ∀ j ∈ is, j < n)
    (hlen : n ≤ is.length) (hi : i < n) : i ∈ is := by
  have hsub : is ⊆ List.range n := fun j hj => List.mem_range.mpr (hlt j hj)
  have hperm := (List.subperm_of_subset hnodup hsub).perm_of_length_le (by simpa using hlen)
  exact hperm.mem_iff.mpr (List.mem_range.mpr hi)

theorem mem_of_size {n i : ℕ} {used : Std.TreeSet ℕ} (hlt : ∀ j ∈ used, j < n)
    (hsize : n ≤ used.size) (hi : i < n) : i ∈ used := by
  have hnodup : used.toList.Nodup :=
    used.distinct_toList.imp fun hne heq => hne (compare_eq_iff_eq.mpr heq)
  rw [← Std.TreeSet.mem_toList]
  exact mem_of_nodup hnodup (fun j hj => hlt j (Std.TreeSet.mem_toList.mp hj))
    (by rwa [Std.TreeSet.length_toList]) hi

theorem mem_insert_iff {used : Std.TreeSet ℕ} {i j : ℕ} :
    j ∈ used.insert i ↔ i = j ∨ j ∈ used := by
  rw [Std.TreeSet.mem_insert, compare_eq_iff_eq]

theorem mem_ofList_iff {is : List ℕ} {i : ℕ} : i ∈ Std.TreeSet.ofList is ↔ i ∈ is := by
  rw [Std.TreeSet.mem_ofList, List.contains_iff_mem]

/-! ### Floyd's method -/

/-- The picks are distinct, and were not picked before: what is picked lies below every top that is
still to come. -/
theorem nodup_floydFrom : ∀ (picked : Std.TreeSet ℕ) (ps : List (ℕ × ℕ)),
    ps.Pairwise (fun p q => p.1 < q.1) → (∀ p ∈ ps, p.2 ≤ p.1) →
      (∀ j ∈ picked, ∀ p ∈ ps, j < p.1) →
        (floydFrom picked ps).Nodup ∧ ∀ i ∈ floydFrom picked ps, i ∉ picked
  | _, [], _, _, _ => ⟨List.nodup_nil, nofun⟩
  | picked, (top, drawn) :: ps, hsorted, hle, hbelow => by
    obtain ⟨hhead, htail⟩ := List.pairwise_cons.mp hsorted
    obtain ⟨hdrawn, hle⟩ := List.forall_mem_cons.mp hle
    have hnew : ∀ i, i = (if drawn ∈ picked then top else drawn) → i ∉ picked ∧ i ≤ top := by
      rintro i rfl
      split_ifs with h
      · exact ⟨fun htop => (hbelow top htop _ List.mem_cons_self).false, le_rfl⟩
      · exact ⟨h, hdrawn⟩
    unfold floydFrom
    generalize (if drawn ∈ picked then top else drawn) = i at hnew
    obtain ⟨hfresh, htop⟩ := hnew i rfl
    have hinsert : ∀ j ∈ picked.insert i, ∀ p ∈ ps, j < p.1 := by
      intro j hj p hp
      rcases mem_insert_iff.mp hj with rfl | hj
      · exact htop.trans_lt (hhead p hp)
      · exact hbelow j hj p (List.mem_cons_of_mem _ hp)
    obtain ⟨hnodup, hlater⟩ := nodup_floydFrom (picked.insert i) ps htail hle hinsert
    refine ⟨List.nodup_cons.mpr ⟨fun hi => hlater i hi (mem_insert_iff.mpr (Or.inl rfl)), hnodup⟩,
      List.forall_mem_cons.mpr ⟨hfresh, fun j hj hpicked => ?_⟩⟩
    exact hlater j hj (mem_insert_iff.mpr (Or.inr hpicked))

theorem nodup_floyd {n k : ℕ} {draws : List ℕ}
    (h : List.Forall₂ (fun top i => i ≤ top) (floydTops n k) draws) :
    (floyd n k draws).Nodup := by
  have hfst : ((floydTops n k).zip draws).map Prod.fst = floydTops n k :=
    List.map_fst_zip h.length_eq.le
  have hsorted : ((floydTops n k).zip draws).Pairwise fun p q => p.1 < q.1 := by
    rw [← List.pairwise_map (f := Prod.fst), hfst]
    exact List.pairwise_lt_range'
  exact (nodup_floydFrom ∅ _ hsorted (fun p hp => (List.forall₂_iff_zip.mp h).2 hp) (by simp)).1

namespace Seeding

variable {σ ω : Type} [Source σ ω] [Source.InRange σ]

theorem yields_covers_sampleRows {n k : ℕ} (hk : n ≤ k) :
    Yields (sampleRows n k : Seeding σ ω (List ℕ)) fun is => ∀ i < n, i ∈ is := by
  unfold sampleRows
  split_ifs with hle
  · obtain rfl : k = n := hle.antisymm hk
    refine (Yields.mapM (fun top => yields_index top) _).bind fun draws hdraws =>
      yields_pure fun i hi => ?_
    obtain ⟨hlength, hlt⟩ := rowIndices_floyd le_rfl hdraws
    exact mem_of_nodup (nodup_floyd hdraws) hlt hlength.ge hi
  · exact yields_andThen fun more => yields_andThen fun _ => yields_pure fun i hi =>
      List.mem_append_left _ (List.mem_range.mpr hi)

/-! ### Padding -/

omit [Source.InRange σ] in
theorem yields_unused_fresh (top : ℕ) (used : Std.TreeSet ℕ) :
    ∀ tries, Yields (unused top used tries : Seeding σ ω ℕ) (· ∉ used)
  | 0 => yields_throw _
  | tries + 1 => by
    unfold unused
    refine yields_andThen fun r => ?_
    split_ifs with h
    · exact yields_unused_fresh top used tries
    · exact yields_pure h

/-- Padding draws an unused row as long as there is one. -/
theorem yields_new_pad {n : ℕ} (hn : 0 < n) : ∀ (count : ℕ) {used : Std.TreeSet ℕ}
    {is : List ℕ}, (∀ j, j ∈ used ↔ j ∈ is) → (∀ j ∈ is, j < n) →
      NewWhileMissing (Finset.range n) is →
        Yields (pad n count used : Seeding σ ω (List ℕ)) fun more =>
          NewWhileMissing (Finset.range n) (is ++ more)
  | 0, _, is, _, _, h => yields_pure (by rwa [List.append_nil])
  | count + 1, used, is, hused, hlt, h => by
    unfold pad
    by_cases hroom : used.size < n
    · rw [if_pos hroom]
      -- while a row is unused the loop draws on until it meets one
      have hunused := (yields_unused (σ := σ) (lastIndex n) used Uniform.patience).and
        (yields_unused_fresh (lastIndex n) used Uniform.patience)
      refine hunused.bind fun r hr => ?_
      obtain ⟨hle, hfresh⟩ := hr
      have hrlt : r < n := hle.trans_lt (lastIndex_lt hn)
      have hinsert : ∀ j, j ∈ used.insert r ↔ j ∈ is ++ [r] := by
        intro j
        rw [mem_insert_iff, hused, List.mem_append, List.mem_singleton, or_comm, eq_comm]
      have hltr : ∀ j ∈ is ++ [r], j < n :=
        List.forall_mem_append.mpr ⟨hlt, by simpa using hrlt⟩
      have hnext : NewWhileMissing (Finset.range n) (is ++ [r]) :=
        h.concat fun _ => ⟨Finset.mem_range.mpr hrlt, mt (hused r).mpr hfresh⟩
      refine (yields_new_pad hn count hinsert hltr hnext).bind fun more hmore => yields_pure ?_
      rwa [List.append_assoc] at hmore
    · rw [if_neg hroom]
      have hltused : ∀ j ∈ used, j < n := fun j hj => hlt j ((hused j).mp hj)
      -- every row is used, so whichever index comes next adds nothing to the set
      have hall : ∀ j < n, j ∈ is := fun j hj =>
        (hused j).mp (mem_of_size hltused (not_lt.mp hroom) hj)
      refine (yields_index_lastIndex hn).bind fun r hr => ?_
      have hsame : ∀ j, j ∈ used ↔ j ∈ is ++ [r] := by
        intro j
        rw [hused, List.mem_append, List.mem_singleton]
        exact ⟨Or.inl, fun hj => hj.elim id fun heq => heq ▸ hall r hr⟩
      have hltr : ∀ j ∈ is ++ [r], j < n :=
        List.forall_mem_append.mpr ⟨hlt, by simpa using hr⟩
      have hnext : NewWhileMissing (Finset.range n) (is ++ [r]) := by
        refine h.concat fun hmissing => ?_
        obtain ⟨j, hj, hout⟩ := hmissing
        exact absurd (hall j (Finset.mem_range.mp hj)) hout
      refine (yields_new_pad hn count hsame hltr hnext).bind fun more hmore => yields_pure ?_
      rwa [List.append_assoc] at hmore

/-- Distinct rows that are padded to as many as there are, or more, are all rows. -/
theorem yields_covers_pad {n count : ℕ} (hn : 0 < n) {is : List ℕ} (hnodup : is.Nodup)
    (hlt : ∀ j ∈ is, j < n) (hsize : n ≤ is.length + count) :
    Yields (pad n count (.ofList is) : Seeding σ ω (List ℕ)) fun more =>
      ∀ i < n, i ∈ is ++ more := by
  have hnew : NewWhileMissing (Finset.range n) is :=
    .of_nodup hnodup fun j hj => Finset.mem_range.mpr (hlt j hj)
  refine ((yields_pad hn count _).and
    (yields_new_pad hn count (fun j => mem_ofList_iff) hlt hnew)).mono fun more h i hi => ?_
  refine h.2.mem_of_card_le ?_ (Finset.mem_range.mpr hi)
  rw [Finset.card_range, List.length_append, h.1.length]
  exact hsize

end Seeding

end Clustering
