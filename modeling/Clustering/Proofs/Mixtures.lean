import Mathlib
import Clustering.Kernel
import Clustering.Proofs.WordStreams

/-!
# Samples of a mixture

The normal numbers of a sample are one run of draws that knows nothing of rows
(`Mixture.drawRows_eq`).  A run that goes on starts with the run so far (`Normal.draws_add`), and
the clusters are drawn before all rows; so a longer sample starts with the shorter one, around the
same centres.

`Mixture.handOver_prefix_and_labels` puts this together with what exact arithmetic says of the rows:
each lies around the centre that its label names.
-/

namespace Clustering

/-! ### Runs of draws -/

namespace Normal

variable {α σ : Type} [Scalar α]

/-- Successive draws. -/
def draws (unit : σ → α × σ) (tries : ℕ) : (count : ℕ) → State α σ → Option (List α × State α σ)
  | 0, s => some ([], s)
  | count + 1, s =>
    (draw unit tries s).bind fun r =>
      (draws unit tries count r.2).map fun q => (r.1 :: q.1, q.2)

variable {unit : σ → α × σ} {tries tries' : ℕ}

theorem draws_add (a b : ℕ) (s : State α σ) :
    draws unit tries (a + b) s =
      (draws unit tries a s).bind fun p =>
        (draws unit tries b p.2).map fun q => (p.1 ++ q.1, q.2) := by
  induction a generalizing s with
  | zero =>
    rw [Nat.zero_add]
    cases h : draws unit tries b s <;> simp [draws, h]
  | succ a ih =>
    rw [Nat.succ_add, draws, draws]
    cases draw unit tries s with
    | none => rfl
    | some r =>
      rw [Option.bind_some, Option.bind_some, ih]
      cases draws unit tries a r.2 with
      | none => rfl
      | some p =>
        rw [Option.bind_some, Option.map_some, Option.bind_some, Option.map_map]
        rfl

theorem length_draws {count : ℕ} {s : State α σ} {r : List α × State α σ}
    (h : draws unit tries count s = some r) : r.1.length = count := by
  induction count generalizing s r with
  | zero =>
    cases h
    rfl
  | succ count ih =>
    obtain ⟨p, -, h⟩ := Option.bind_eq_some_iff.mp h
    obtain ⟨q, hq, rfl⟩ := Option.map_eq_some_iff.mp h
    rw [List.length_cons, ih hq]

/-- The first of a longer run of draws. -/
theorem draws_take {a b : ℕ} (hab : a ≤ b) {s : State α σ} {r : List α × State α σ}
    (h : draws unit tries b s = some r) :
    ∃ rest, draws unit tries a s = some (r.1.take a, rest) := by
  obtain ⟨c, rfl⟩ := Nat.exists_eq_add_of_le hab
  rw [draws_add] at h
  obtain ⟨p, hp, h⟩ := Option.bind_eq_some_iff.mp h
  obtain ⟨q, -, rfl⟩ := Option.map_eq_some_iff.mp h
  exact ⟨p.2, by rw [List.take_left' (length_draws hp), hp]⟩

/-! A draw that succeeds does not depend on when it would have been given up. -/

theorem point_of_le (h : tries ≤ tries') {s : σ} {r : (α × α × α) × σ}
    (hr : point unit tries s = some r) : point unit tries' s = some r := by
  induction tries generalizing tries' s with
  | zero => cases hr
  | succ tries ih =>
    obtain ⟨t, rfl⟩ := Nat.exists_eq_add_of_le' (Nat.lt_of_lt_of_le (Nat.succ_pos tries) h)
    unfold point at hr ⊢
    dsimp only at hr ⊢
    split_ifs at hr ⊢ with hreject
    · exact ih (Nat.le_of_succ_le_succ h) hr
    · exact hr

theorem draw_of_le (h : tries ≤ tries') {s : State α σ} {r : α × State α σ}
    (hr : draw unit tries s = some r) : draw unit tries' s = some r := by
  unfold draw at hr ⊢
  cases hspare : s.spare with
  | some v => simpa only [hspare] using hr
  | none =>
    simp only [hspare] at hr ⊢
    obtain ⟨p, hp, rfl⟩ := Option.map_eq_some_iff.mp hr
    rw [point_of_le h hp, Option.map_some]

theorem draws_of_le (h : tries ≤ tries') {count : ℕ} {s : State α σ} {r : List α × State α σ}
    (hr : draws unit tries count s = some r) : draws unit tries' count s = some r := by
  induction count generalizing s r with
  | zero => exact hr
  | succ count ih =>
    obtain ⟨p, hp, hr⟩ := Option.bind_eq_some_iff.mp hr
    obtain ⟨q, hq, rfl⟩ := Option.map_eq_some_iff.mp hr
    rw [draws, draw_of_le h hp, Option.bind_some, ih hq, Option.map_some]

end Normal

/-! ### Rows around centres -/

namespace Mixture

section Rows

variable {α σ : Type} [Scalar α]

/-- The row that normal numbers make of a cluster. -/
def rowAround (cluster : α × List α) (zs : List α) : List α :=
  List.zipWith (fun c z => c + cluster.1 * z) cluster.2 zs

/-- The cluster that row `i` is dealt to. -/
def dealt (clusters : List (α × List α)) (i : ℕ) : α × List α :=
  clusters.getD (i % clusters.length) (0, [])

/-- The rows that normal numbers make, from row `i` on. -/
def rowsAround (clusters : List (α × List α)) (dim count i : ℕ) (zs : List α) : List (List α) :=
  List.zipWith (fun j => rowAround (dealt clusters j)) (List.range' i count)
    (Matrix.cut dim count zs)

variable {unit : σ → α × σ} {tries : ℕ} {clusters : List (α × List α)} {dim : ℕ}

/-- Rows that are dealt more normal numbers begin with the rows that were dealt the first ones. -/
theorem rowsAround_append (clusters : List (α × List α)) (a b i : ℕ) {xs : List α} (ys : List α)
    (hxs : xs.length = a * dim) :
    rowsAround clusters dim (a + b) i (xs ++ ys) =
      rowsAround clusters dim a i xs ++ rowsAround clusters dim b (i + a) ys := by
  have hrange : List.range' i (a + b) = List.range' i a ++ List.range' (i + a) b :=
    List.range'_append_1.symm
  unfold rowsAround
  rw [hrange, Matrix.cut_append dim a b ys hxs, List.zipWith_append]
  rw [List.length_range', Matrix.length_cut]

theorem rowsAround_one (i : ℕ) {zs : List α} (hzs : zs.length = dim) :
    rowsAround clusters dim 1 i zs = [rowAround (dealt clusters i) zs] := by
  subst hzs
  simp [rowsAround, Matrix.cut]

theorem drawRow_eq (scale : α) (centre : List α) (s : Normal.State α σ) :
    drawRow unit tries scale centre s =
      (Normal.draws unit tries centre.length s).map fun r =>
        (rowAround (scale, centre) r.1, r.2) := by
  induction centre generalizing s with
  | nil => rfl
  | cons c centre ih =>
    rw [drawRow, List.length_cons, Normal.draws]
    cases Normal.draw unit tries s with
    | none => rfl
    | some r =>
      show (drawRow unit tries scale centre r.2).bind _ = _
      rw [ih, Option.bind_some]
      cases Normal.draws unit tries centre.length r.2 <;> rfl

/-- Rows of one width are dealt a run of draws. -/
theorem drawRows_eq (hclusters : ∀ i, (dealt clusters i).2.length = dim) (count i : ℕ)
    (s : Normal.State α σ) :
    drawRows unit tries clusters.toArray count i s =
      (Normal.draws unit tries (count * dim) s).map fun r =>
        rowsAround clusters dim count i r.1 := by
  induction count generalizing i s with
  | zero =>
    rw [Nat.zero_mul]
    rfl
  | succ count ih =>
    have hdealt : clusters.toArray.getD (i % clusters.toArray.size) (0, []) = dealt clusters i := by
      simp [dealt]
    -- a number that is kept at the end of a row is the first of the next row, so the rows are cut
    -- off one run and do not start runs of their own
    rw [drawRows, hdealt, Nat.succ_mul, Nat.add_comm _ dim, Normal.draws_add]
    show (drawRow unit tries (dealt clusters i).1 (dealt clusters i).2 s).bind _ = _
    rw [drawRow_eq, hclusters]
    cases hr : Normal.draws unit tries dim s with
    | none => rfl
    | some r =>
      have hlength : r.1.length = dim := Normal.length_draws hr
      show (drawRows unit tries clusters.toArray count (i + 1) r.2).bind _ = _
      rw [ih, Option.bind_some]
      cases Normal.draws unit tries (count * dim) r.2 with
      | none => rfl
      | some q =>
        have hfirst := rowsAround_append clusters 1 count i q.1
          (hlength.trans (Nat.one_mul dim).symm)
        rw [rowsAround_one i hlength, Nat.add_comm 1 count] at hfirst
        exact congrArg some hfirst.symm

theorem length_of_mem_rowsAround (hclusters : ∀ i, (dealt clusters i).2.length = dim)
    {count i : ℕ} {zs : List α} (hzs : zs.length = count * dim) :
    ∀ v ∈ rowsAround clusters dim count i zs, v.length = dim := by
  intro v hv
  obtain ⟨k, hk, rfl⟩ := List.mem_iff_getElem.mp hv
  have hcut : ∀ w ∈ Matrix.cut dim count zs, w.length = dim :=
    Matrix.length_of_mem_rowList (m := ⟨count, dim, zs⟩) hzs
  rw [rowsAround.eq_1, List.length_zipWith] at hk
  simp only [rowsAround, List.getElem_zipWith, rowAround, List.length_zipWith, hclusters]
  rw [hcut _ (List.getElem_mem _), Nat.min_self]

/-! ### Samples -/

variable {dim : ℕ} (unit : σ → α × σ) (tries : ℕ) (spread noise : α)

theorem length_drawCentre (dim : ℕ) (s : σ) : (drawCentre unit spread dim s).1.length = dim := by
  induction dim generalizing s with
  | zero => rfl
  | succ dim ih => exact congrArg (· + 1) (ih _)

theorem length_drawClusters (dim count : ℕ) (s : σ) :
    (drawClusters unit dim spread noise count s).1.length = count := by
  induction count generalizing s with
  | zero => rfl
  | succ count ih => exact congrArg (· + 1) (ih _)

theorem length_of_mem_drawClusters (dim count : ℕ) (s : σ) :
    ∀ c ∈ (drawClusters unit dim spread noise count s).1, c.2.length = dim := by
  induction count generalizing s with
  | zero => exact fun c hc => nomatch hc
  | succ count ih =>
    intro c hc
    rcases List.mem_cons.mp hc with rfl | hc
    · exact length_drawCentre unit spread dim _
    · exact ih _ c hc

/-- Every row is dealt to a cluster as soon as there is one. -/
theorem dealt_mem {clusters : List (α × List α)} (h : 0 < clusters.length) (i : ℕ) :
    dealt clusters i ∈ clusters := by
  have hlt : i % clusters.length < clusters.length := Nat.mod_lt i h
  rw [dealt, List.getD_eq_getElem _ _ hlt]
  exact List.getElem_mem hlt

theorem length_dealt_drawClusters (dim : ℕ) {g : ℕ} (hg : 1 ≤ g) (source : σ) (i : ℕ) :
    (dealt (drawClusters unit dim spread noise g source).1 i).2.length = dim := by
  refine length_of_mem_drawClusters unit spread noise dim g source _ (dealt_mem ?_ i)
  rwa [length_drawClusters]

/-- The mixture of clusters and normal numbers. -/
def ofNormals (clusters : List (α × List α)) (n dim : ℕ) (zs : List α) : Mixture α :=
  ⟨Matrix.ofRows dim (rowsAround clusters dim n 0 zs), Matrix.ofRows dim (clusters.map (·.2))⟩

@[simp] theorem length_rowsAround (clusters : List (α × List α)) (dim count i : ℕ) (zs : List α) :
    (rowsAround clusters dim count i zs).length = count := by
  simp [rowsAround]

section OfNormals

variable {clusters : List (α × List α)} {n : ℕ} {zs : List α}

theorem full_points_ofNormals (hclusters : ∀ i, (dealt clusters i).2.length = dim)
    (hzs : zs.length = n * dim) : (ofNormals clusters n dim zs).points.Full :=
  Matrix.full_ofRows (length_of_mem_rowsAround hclusters hzs)

theorem length_points_ofNormals (hclusters : ∀ i, (dealt clusters i).2.length = dim)
    (hzs : zs.length = n * dim) : (ofNormals clusters n dim zs).points.values.length = n * dim := by
  have hfull := full_points_ofNormals hclusters hzs
  rwa [Matrix.Full, show (ofNormals clusters n dim zs).points.rows = n from
    length_rowsAround clusters dim n 0 zs] at hfull

/-- The shorter mixture is the beginning of the longer one. -/
theorem ofNormals_take (hclusters : ∀ i, (dealt clusters i).2.length = dim) {m : ℕ} (hnm : n ≤ m)
    (hzs : zs.length = m * dim) :
    ofNormals clusters n dim (zs.take (n * dim)) =
      ⟨⟨n, dim, (ofNormals clusters m dim zs).points.values.take (n * dim)⟩,
        (ofNormals clusters m dim zs).centres⟩ := by
  obtain ⟨k, rfl⟩ := Nat.exists_eq_add_of_le hnm
  have hle : n * dim ≤ zs.length := hzs ▸ Nat.mul_le_mul_right dim hnm
  have hfirst : (zs.take (n * dim)).length = n * dim := List.length_take_of_le hle
  have hrows := rowsAround_append clusters n k 0 (zs.drop (n * dim)) hfirst
  rw [List.take_append_drop] at hrows
  have hvalues : (ofNormals clusters (n + k) dim zs).points.values.take (n * dim) =
      (ofNormals clusters n dim (zs.take (n * dim))).points.values := by
    show (rowsAround clusters dim (n + k) 0 zs).flatten.take (n * dim) = _
    rw [hrows, List.flatten_append]
    exact List.take_left' (length_points_ofNormals hclusters hfirst)
  rw [hvalues, ofNormals, Matrix.ofRows, length_rowsAround]
  rfl

/-- The normal numbers of a row. -/
def normalsOf (dim : ℕ) (zs : List α) (i : ℕ) : List α := (zs.drop (i * dim)).take dim

omit [Scalar α] in
theorem length_normalsOf (hzs : zs.length = n * dim) {i : ℕ} (hi : i < n) :
    (normalsOf dim zs i).length = dim := Matrix.length_row (m := ⟨n, dim, zs⟩) hzs hi

theorem row_points_ofNormals (hclusters : ∀ i, (dealt clusters i).2.length = dim)
    (hzs : zs.length = n * dim) {i : ℕ} (hi : i < n) :
    (ofNormals clusters n dim zs).points.row i =
      rowAround (dealt clusters i) (normalsOf dim zs i) := by
  refine Matrix.row_ofRows (length_of_mem_rowsAround hclusters hzs) ?_
  have hindex : (List.range' 0 n)[i]? = some i := by
    rw [List.getElem?_range' hi, Nat.one_mul, Nat.zero_add]
  rw [rowsAround, List.getElem?_zipWith, hindex, Matrix.getElem?_cut dim n i zs hi]
  rfl

theorem row_centres_ofNormals (hlength : ∀ c ∈ clusters, c.2.length = dim) {l : ℕ}
    (hl : l < clusters.length) :
    (ofNormals clusters n dim zs).centres.row l = (clusters.getD l (0, [])).2 := by
  refine Matrix.row_ofRows (fun v hv => ?_) ?_
  · obtain ⟨c, hc, rfl⟩ := List.mem_map.mp hv
    exact hlength c hc
  · rw [List.getElem?_map, List.getElem?_eq_getElem hl, List.getD_eq_getElem _ _ hl,
      Option.map_some]

end OfNormals

/-- Storage for the centres, the scales and the rows is asked for; then the mixture is made of the
clusters that are drawn first and the normal numbers that are drawn after them. -/
theorem generate_eq [Memory] {n g : ℕ} (hn : 1 ≤ n) (hdim : 1 ≤ dim) (hg : 1 ≤ g) (source : σ) :
    generate unit tries source n dim g spread noise =
      (Memory.storage (Scalar.bytes α) (sizeWord (g * dim))).bind fun _ =>
        (Memory.storage (Scalar.bytes α) g).bind fun _ =>
          (Memory.storage (Scalar.bytes α) (sizeWord (n * dim))).bind fun _ =>
            (Normal.draws unit tries (n * dim)
              ⟨(drawClusters unit dim spread noise g source).2, none⟩).elim (.error .stalled)
              fun r =>
                .ok (ofNormals (drawClusters unit dim spread noise g source).1 n dim r.1) := by
  have hshape : ¬ (n = 0 ∨ dim = 0 ∨ g = 0) := by omega
  have hlength := length_drawClusters unit spread noise dim g source
  have hdealt := length_dealt_drawClusters unit spread noise dim hg source
  rw [generate, if_neg hshape]
  generalize drawClusters unit dim spread noise g source = drawn at hlength hdealt ⊢
  obtain ⟨clusters, source'⟩ := drawn
  dsimp only at hlength hdealt ⊢
  refine congrArg _ (funext fun _ => congrArg _ (funext fun _ => congrArg _ (funext fun _ => ?_)))
  rw [drawRows_eq hdealt]
  cases hr : Normal.draws unit tries (n * dim) ⟨source', none⟩ with
  | none => rfl
  | some r =>
    have hrows : (rowsAround clusters dim n 0 r.1).length = n := length_rowsAround ..
    show Except.ok _ = Except.ok (ofNormals clusters n dim r.1)
    rw [ofNormals, Matrix.ofRows, Matrix.ofRows, hrows, List.length_map, hlength]

/-- The memory for a mixture is granted. -/
structure Granted (α : Type) [Scalar α] [Memory] (n dim g : ℕ) : Prop where
  centres : Memory.storage (Scalar.bytes α) (sizeWord (g * dim)) = .ok ()
  scales : Memory.storage (Scalar.bytes α) g = .ok ()
  points : Memory.storage (Scalar.bytes α) (sizeWord (n * dim)) = .ok ()

/-- There is a mixture exactly where memory is granted and the normal numbers can be drawn. -/
theorem generate_eq_ok_iff [Memory] {n g : ℕ} (hn : 1 ≤ n) (hdim : 1 ≤ dim) (hg : 1 ≤ g)
    {source : σ} {M : Mixture α} :
    generate unit tries source n dim g spread noise = .ok M ↔
      Granted α n dim g ∧ ∃ r, Normal.draws unit tries (n * dim)
        ⟨(drawClusters unit dim spread noise g source).2, none⟩ = some r ∧
        ofNormals (drawClusters unit dim spread noise g source).1 n dim r.1 = M := by
  rw [generate_eq unit tries spread noise hn hdim hg]
  constructor
  · intro h
    obtain ⟨_, hcentres, h⟩ := Kernel.exists_of_bind_ok h
    obtain ⟨_, hscales, h⟩ := Kernel.exists_of_bind_ok h
    obtain ⟨_, hpoints, h⟩ := Kernel.exists_of_bind_ok h
    refine ⟨⟨hcentres, hscales, hpoints⟩, ?_⟩
    cases hr : Normal.draws unit tries (n * dim)
        ⟨(drawClusters unit dim spread noise g source).2, none⟩ with
    | none =>
      rw [hr] at h
      cases h
    | some r =>
      rw [hr] at h
      exact ⟨r, rfl, Except.ok.inj h⟩
  · rintro ⟨⟨hcentres, hscales, hpoints⟩, r, hr, rfl⟩
    rw [hcentres, hscales, hpoints, hr]
    rfl

variable {unit tries spread noise}

theorem length_values_of_generate [Memory] {n g : ℕ} (hn : 1 ≤ n) (hdim : 1 ≤ dim) (hg : 1 ≤ g)
    {source : σ} {M : Mixture α}
    (h : generate unit tries source n dim g spread noise = .ok M) :
    M.points.values.length = n * dim ∧ M.centres.values.length = g * dim := by
  obtain ⟨-, r, hr, rfl⟩ := (generate_eq_ok_iff unit tries spread noise hn hdim hg).mp h
  have hlength := length_drawClusters unit spread noise dim g source
  have hwidth := length_of_mem_drawClusters unit spread noise dim g source
  have hcentres :
      (ofNormals (drawClusters unit dim spread noise g source).1 n dim r.1).centres.Full :=
    Matrix.full_ofRows (List.forall_mem_map.mpr hwidth)
  refine ⟨length_points_ofNormals (length_dealt_drawClusters unit spread noise dim hg source)
    (Normal.length_draws hr), hcentres.trans ?_⟩
  show (List.map _ _).length * dim = g * dim
  rw [List.length_map, hlength]

/-- A shorter sample asks for less storage, and is the beginning of the longer one. -/
theorem generate_shorter [Memory] {n m g tries' : ℕ} (hn : 1 ≤ n) (hnm : n ≤ m) (hdim : 1 ≤ dim)
    (hg : 1 ≤ g) (htries : tries ≤ tries') {source : σ} {M : Mixture α}
    (h : generate unit tries source m dim g spread noise = .ok M) :
    generate unit tries' source n dim g spread noise =
      (Memory.storage (Scalar.bytes α) (sizeWord (n * dim))).map fun _ =>
        ⟨⟨n, dim, M.points.values.take (n * dim)⟩, M.centres⟩ := by
  obtain ⟨hgranted, r, hr, rfl⟩ :=
    (generate_eq_ok_iff unit tries spread noise (hn.trans hnm) hdim hg).mp h
  obtain ⟨rest, hfirst⟩ := Normal.draws_take (Nat.mul_le_mul_right dim hnm) hr
  have hdealt := length_dealt_drawClusters unit spread noise dim hg source
  rw [generate_eq unit tries' spread noise hn hdim hg, hgranted.centres, hgranted.scales,
    Normal.draws_of_le htries hfirst, ← ofNormals_take hdealt hnm (Normal.length_draws hr)]
  cases Memory.storage (Scalar.bytes α) (sizeWord (n * dim)) <;> rfl

omit [Scalar α] in
theorem handOver_eq_ok_iff {place : Option (List α)} {r : Except Failure (Mixture α)}
    {data : List α} :
    (handOver place r).1 = .ok data ↔ ∃ M, r = .ok M ∧ M.points.values = data := by
  cases r with
  | error f => exact iff_of_false nofun nofun
  | ok M => simp [handOver]

end Rows

/-! ### Exact mixtures -/

section Exact

variable {K σ : Type} [ExactScalar K] {word : σ → UInt64 × σ} {range words : ℕ}
  {spread noise : K}

/-- The labels of rows that are dealt to the clusters in turn. -/
def roundRobin (n g : ℕ) : List ℤ := (List.range n).map fun i => ((i % g : ℕ) : ℤ)

theorem getElem?_roundRobin {n g i l : ℕ} :
    (roundRobin n g)[i]? = some (l : ℤ) ↔ i < n ∧ i % g = l := by
  rw [roundRobin, List.getElem?_map]
  rcases Nat.lt_or_ge i n with hi | hi
  · rw [List.getElem?_range hi, Option.map_some, Option.some.injEq, Nat.cast_inj, and_iff_right hi]
  · rw [List.getElem?_eq_none (by rwa [List.length_range])]
    exact iff_of_false nofun fun h => absurd h.1 (Nat.not_lt.mpr hi)

theorem eq_of_trueLabels?_eq_ok [Memory] {n g : ℕ} (hg : 1 ≤ g) (hlimit : g ≤ indexLimit)
    {labels : List ℤ} (h : trueLabels? n g = .ok labels) :
    labels = roundRobin n g := by
  obtain ⟨ls, hls, h⟩ := Kernel.exists_of_bind_ok h
  obtain ⟨_, -, hls⟩ := Kernel.exists_of_bind_ok hls
  obtain rfl := Except.ok.inj hls
  obtain rfl := Except.ok.inj h
  rw [List.map_map]
  refine List.map_congr_left fun i _ => ?_
  have hlt : i % g < 0x7fff_ffff := (Nat.mod_lt i hg).trans_le hlimit
  rw [Function.comp_apply]
  exact Int.bmod_eq_of_le (by omega) (by omega)

/-- The scale and the centre of a cluster keep to their bounds. -/
structure Bounded (spread noise : K) (cluster : K × List K) : Prop where
  scale : 0 ≤ noise → noise / 2 ≤ cluster.1 ∧ cluster.1 ≤ 2 * noise
  centre : 0 ≤ spread → ∀ c ∈ cluster.2, -spread ≤ c ∧ c ≤ spread

theorem drawCentre_spec (words : ℕ) (spread : K) : ∀ (dim : ℕ) {s : σ}, WordsBelow word range s →
    (0 ≤ spread → ∀ c ∈ (drawCentre (Uniform.unit word (range : K) words) spread dim s).1,
      -spread ≤ c ∧ c ≤ spread) ∧
      WordsBelow word range (drawCentre (Uniform.unit word (range : K) words) spread dim s).2
  | 0, _, hs => ⟨fun _ c hc => (nomatch hc), hs⟩
  | dim + 1, s, hs => by
    obtain ⟨h0, h1, hnext⟩ := Uniform.unit_spec (K := K) words hs
    obtain ⟨hlater, hrest⟩ := drawCentre_spec words spread dim hnext
    refine ⟨fun hspread c hc => ?_, hrest⟩
    rcases List.mem_cons.mp hc with rfl | hc
    · exact Uniform.between_mem (by linarith) h0 h1.le
    · exact hlater hspread c hc

theorem drawClusters_spec (dim : ℕ) : ∀ (count : ℕ) {s : σ}, WordsBelow word range s →
    ∀ c ∈ (drawClusters (Uniform.unit word (range : K) words) dim spread noise count s).1,
      Bounded spread noise c
  | 0, _, _, _, hc => nomatch hc
  | count + 1, s, hs, c, hc => by
    obtain ⟨h0, h1, hnext⟩ := Uniform.unit_spec (K := K) words hs
    obtain ⟨hcentre, hrest⟩ := drawCentre_spec words spread dim hnext
    rcases List.mem_cons.mp hc with rfl | hc
    · refine ⟨fun hnoise => ?_, hcentre⟩
      obtain ⟨hlow, hhigh⟩ := Uniform.between_mem
        (show 1 / ((2 : ℕ) : K) ≤ ((2 : ℕ) : K) by norm_num) h0 h1.le
      constructor
      · calc noise / 2 = 1 / ((2 : ℕ) : K) * noise := by push_cast; ring
          _ ≤ _ := mul_le_mul_of_nonneg_right hlow hnoise
      · exact_mod_cast mul_le_mul_of_nonneg_right hhigh hnoise
    · exact drawClusters_spec dim count hrest c hc

/-- Without a scale the normal numbers do not show. -/
theorem rowAround_of_scale_zero {cluster : K × List K} (h : cluster.1 = 0) {zs : List K}
    (hzs : cluster.2.length = zs.length) : rowAround cluster zs = cluster.2 := by
  refine List.ext_getElem (by simp [rowAround, hzs]) fun i _ _ => ?_
  simp [rowAround, h]

/-- What the labels of the rows say of a mixture.  Row `i` lies around the centre that its label
names: it is that centre plus the scale of the cluster times the next `dim` normal numbers. -/
structure FollowsLabels (M : Mixture K) (n dim g : ℕ) (labels : List ℤ) (scales normals : List K)
    (spread noise : K) : Prop where
  points_shape : M.points.Full ∧ M.points.rows = n ∧ M.points.cols = dim
  centres_shape : M.centres.Full ∧ M.centres.rows = g ∧ M.centres.cols = dim
  lengths : labels.length = n ∧ scales.length = g ∧ normals.length = n * dim
  label_lt : ∀ i < n, ∃ l < g, labels[i]? = some (l : ℤ)
  row_eq : ∀ i l : ℕ, labels[i]? = some (l : ℤ) → M.points.row i =
    List.zipWith (fun c z => c + scales.getD l 0 * z) (M.centres.row l) (normalsOf dim normals i)
  row_of_still : noise = 0 → ∀ i l : ℕ, labels[i]? = some (l : ℤ) →
    M.points.row i = M.centres.row l
  scale_mem : 0 ≤ noise → ∀ a ∈ scales, noise / 2 ≤ a ∧ a ≤ 2 * noise
  centre_mem : 0 ≤ spread → ∀ c ∈ M.centres.values, -spread ≤ c ∧ c ≤ spread

theorem followsLabels_ofNormals {clusters : List (K × List K)} {n dim : ℕ} {zs : List K}
    (hg : 0 < clusters.length) (hlength : ∀ c ∈ clusters, c.2.length = dim)
    (hbounded : ∀ c ∈ clusters, Bounded spread noise c) (hzs : zs.length = n * dim) :
    (ofNormals clusters n dim zs).FollowsLabels n dim clusters.length
      (roundRobin n clusters.length) (clusters.map (·.1)) zs spread noise := by
  have hdealt : ∀ i, (dealt clusters i).2.length = dim := fun i => hlength _ (dealt_mem hg i)
  have hwidth : ∀ v ∈ clusters.map (·.2), v.length = dim := List.forall_mem_map.mpr hlength
  have hscales : 0 ≤ noise → ∀ a ∈ clusters.map (·.1), noise / 2 ≤ a ∧ a ≤ 2 * noise :=
    fun hnoise => List.forall_mem_map.mpr fun c hc => (hbounded c hc).scale hnoise
  have hcentre : ∀ i, (ofNormals clusters n dim zs).centres.row (i % clusters.length) =
      (dealt clusters i).2 := fun i => row_centres_ofNormals hlength (Nat.mod_lt i hg)
  have hscale : ∀ i, (clusters.map (·.1)).getD (i % clusters.length) 0 = (dealt clusters i).1 :=
    fun i => List.getD_map clusters (0, []) Prod.fst
  refine ⟨⟨full_points_ofNormals hdealt hzs, length_rowsAround .., rfl⟩,
    ⟨Matrix.full_ofRows hwidth, List.length_map .., rfl⟩,
    ⟨by rw [roundRobin, List.length_map, List.length_range], List.length_map .., hzs⟩,
    fun i hi => ⟨i % clusters.length, Nat.mod_lt i hg, getElem?_roundRobin.mpr ⟨hi, rfl⟩⟩,
    fun i l hlabel => ?_, fun hstill i l hlabel => ?_, hscales, fun hspread c hc => ?_⟩
  · obtain ⟨hi, rfl⟩ := getElem?_roundRobin.mp hlabel
    rw [row_points_ofNormals hdealt hzs hi, hcentre, hscale]
    rfl
  -- without noise the bounds of a scale meet at zero
  · obtain ⟨hi, rfl⟩ := getElem?_roundRobin.mp hlabel
    obtain ⟨hlow, hhigh⟩ := (hbounded _ (dealt_mem hg i)).scale hstill.ge
    have hzero : (dealt clusters i).1 = 0 := by linarith
    rw [row_points_ofNormals hdealt hzs hi, hcentre]
    refine rowAround_of_scale_zero hzero ?_
    rw [hdealt, length_normalsOf hzs hi]
  · obtain ⟨v, hv, hc⟩ := List.mem_flatten.mp hc
    obtain ⟨cluster, hcluster, rfl⟩ := List.mem_map.mp hv
    exact (hbounded cluster hcluster).centre hspread c hc

/-- The mixture follows the labels, with the scales and the normal numbers that the source gives
after one another. -/
def DrawnFrom (M : Mixture K) (unit : σ → K × σ) (tries : ℕ) (source : σ) (n dim g : ℕ)
    (spread noise : K) (labels : List ℤ) : Prop :=
  ∃ normals rest, Normal.draws unit tries (n * dim)
      ⟨(drawClusters unit dim spread noise g source).2, none⟩ = some (normals, rest) ∧
    M.FollowsLabels n dim g labels ((drawClusters unit dim spread noise g source).1.map (·.1))
      normals spread noise

/-- From words below the range of a source, a mixture is drawn as its labels say. -/
theorem drawnFrom_of_generate [Memory] {n dim g tries : ℕ} (hn : 1 ≤ n) (hdim : 1 ≤ dim)
    (hg : 1 ≤ g) (hlimit : g ≤ indexLimit) {source : σ} (hsource : WordsBelow word range source)
    {M : Mixture K} {labels : List ℤ}
    (h : generate (Uniform.unit word (range : K) words) tries source n dim g spread noise = .ok M)
    (hlabels : trueLabels? n g = .ok labels) :
    M.DrawnFrom (Uniform.unit word (range : K) words) tries source n dim g spread noise labels := by
  obtain rfl := eq_of_trueLabels?_eq_ok hg hlimit hlabels
  obtain ⟨-, ⟨normals, rest⟩, hr, rfl⟩ := (generate_eq_ok_iff _ _ _ _ hn hdim hg).mp h
  have hlength :=
    length_drawClusters (Uniform.unit word (range : K) words) spread noise dim g source
  refine ⟨normals, rest, hr, ?_⟩
  have hfollows := followsLabels_ofNormals (n := n) (Nat.lt_of_lt_of_eq hg hlength.symm)
    (length_of_mem_drawClusters _ spread noise dim g source) (drawClusters_spec dim g hsource)
    (Normal.length_draws hr)
  rwa [hlength] at hfollows

end Exact

/-- A sample is handed over exactly where memory is granted and its normal numbers can be drawn.
It has all its values and centres, and every shorter sample from the same source is its beginning,
around the same centres, with or without a place for these.  In exact arithmetic a sample is drawn
as the labels of its rows say, from any source of words below its range, and from every seed. -/
theorem handOver_prefix_and_labels [Memory] {n m dim g : ℕ} (hn : 1 ≤ n) (hnm : n ≤ m)
    (hdim : 1 ≤ dim) (hg : 1 ≤ g) :
    (∀ {α σ : Type} [Scalar α] (unit : σ → α × σ) (tries : ℕ) (source : σ) (spread noise : α)
      (place : Option (List α)),
      ((∃ data, (handOver place (generate unit tries source m dim g spread noise)).1 = .ok data) ↔
        Granted α m dim g ∧ (Normal.draws unit tries (m * dim)
          ⟨(drawClusters unit dim spread noise g source).2, none⟩).isSome) ∧
      ∀ data, (handOver place (generate unit tries source m dim g spread noise)).1 = .ok data →
        data.length = m * dim ∧ ∃ centres : List α, centres.length = g * dim ∧
          (handOver place (generate unit tries source m dim g spread noise)).2 =
            place.map (fun _ => centres) ∧
          ∀ (place' : Option (List α)) (tries' : ℕ), tries ≤ tries' →
            handOver place' (generate unit tries' source n dim g spread noise) =
              match Memory.storage (Scalar.bytes α) (sizeWord (n * dim)) with
              | .ok _ => (.ok (data.take (n * dim)), place'.map fun _ => centres)
              | .error f => (.error f, place')) ∧
    (∀ {K σ : Type} [ExactScalar K] (word : σ → UInt64 × σ) (range words tries : ℕ) (source : σ)
      (spread noise : K) (M : Mixture K) (labels : List ℤ), WordsBelow word range source →
      generate (Uniform.unit word (range : K) words) tries source n dim g spread noise = .ok M →
      trueLabels? n g = .ok labels → g ≤ indexLimit →
      M.DrawnFrom (Uniform.unit word (range : K) words) tries source n dim g spread noise labels) ∧
    ∀ {K : Type} [ExactScalar K] [UnitWords K] (seed : UInt64) (spread noise : K) (M : Mixture K)
      (labels : List ℤ), ofSeed seed n dim g spread noise = .ok M →
      trueLabels? n g = .ok labels → g ≤ indexLimit →
      M.DrawnFrom (Uniform.unit Twister.next ((0x1_0000_0000 : ℕ) : K) (UnitWords.words K))
        Uniform.patience (Twister.ofSeed Twister.narrow seed) n dim g spread noise labels := by
  have hm : 1 ≤ m := hn.trans hnm
  refine ⟨@fun α σ _ unit tries source spread noise place => ⟨?_, fun data hdata => ?_⟩,
    fun word range words tries source spread noise M labels hsource h hlabels hlimit =>
      drawnFrom_of_generate hn hdim hg hlimit hsource h hlabels,
    fun seed spread noise M labels h hlabels hlimit =>
      drawnFrom_of_generate hn hdim hg hlimit (Twister.wordsBelow_ofSeed seed) h hlabels⟩
  · constructor
    · rintro ⟨data, hdata⟩
      obtain ⟨M, h, -⟩ := handOver_eq_ok_iff.mp hdata
      obtain ⟨hgranted, r, hr, -⟩ := (generate_eq_ok_iff unit tries spread noise hm hdim hg).mp h
      exact ⟨hgranted, hr ▸ rfl⟩
    · rintro ⟨hgranted, hdraws⟩
      obtain ⟨r, hr⟩ := Option.isSome_iff_exists.mp hdraws
      have h := (generate_eq_ok_iff unit tries spread noise hm hdim hg).mpr
        ⟨hgranted, r, hr, rfl⟩
      exact ⟨_, handOver_eq_ok_iff.mpr ⟨_, h, rfl⟩⟩
  · obtain ⟨M, h, rfl⟩ := handOver_eq_ok_iff.mp hdata
    obtain ⟨hpoints, hcentres⟩ := length_values_of_generate hm hdim hg h
    refine ⟨hpoints, M.centres.values, hcentres, by rw [h]; rfl, fun place' tries' htries => ?_⟩
    -- the centres are drawn before the rows, and the shorter sample stops drawing earlier
    rw [generate_shorter hn hnm hdim hg htries h]
    cases Memory.storage (Scalar.bytes α) (sizeWord (n * dim)) <;> rfl

/-- Numbers of the unit interval that are all three quarters. -/
noncomputable def threeQuarters : Unit → ℝ × Unit := Uniform.unit (fun s => (3, s)) ((4 : ℕ) : ℝ) 1

theorem threeQuarters_eq (s : Unit) : threeQuarters s = (3 / 4, s) := by
  have hword : (Scalar.ofWord (3 : UInt64) : ℝ) = 3 := by
    show (((3 : UInt64).toNat : ℕ) : ℝ) = 3
    rw [show (3 : UInt64).toNat = 3 from rfl, Nat.cast_ofNat]
  have hquotient : (0 + (Scalar.ofWord (3 : UInt64) : ℝ) * 1) / (1 * ((4 : ℕ) : ℝ)) = 3 / 4 := by
    rw [hword]
    norm_num
  refine Prod.ext ((if_neg ?_).trans hquotient) rfl
  rw [hquotient]
  norm_num

theorem handOver_prefix_and_labels_threeQuarters :
    (1 ≤ 2 ∧ 2 ≤ 3 ∧ WordsBelow (fun s : Unit => (3, s)) 4 ()) ∧
      ∃ (data centres : List ℝ) (M : Mixture ℝ),
        handOver (some []) (generate threeQuarters 1 () 3 1 2 10 1) = (.ok data, some centres) ∧
        handOver none (generate threeQuarters 1 () 2 1 2 10 1) = (.ok (data.take 2), none) ∧
        generate threeQuarters 1 () 2 1 2 10 1 = .ok M ∧ trueLabels? 2 2 = .ok [0, 1] ∧
        M.DrawnFrom threeQuarters 1 () 2 1 2 10 1 [0, 1] := by
  have hpoint : Normal.point threeQuarters 1 () = some ((1 / 2, 1 / 2, 1 / 2), ()) := by
    unfold Normal.point
    simp only [threeQuarters_eq]
    norm_num
  have hdraws : (Normal.draws threeQuarters 1 3 ⟨(), none⟩).isSome := by
    simp [Normal.draws, Normal.draw, hpoint]
  have hwords : WordsBelow (fun s : Unit => (3, s)) 4 () :=
    fun _ => show (3 : UInt64).toNat < 4 by decide
  have hlabels : trueLabels? 2 2 = .ok [0, 1] := rfl
  obtain ⟨hsample, hexact, -⟩ := handOver_prefix_and_labels (n := 2) (m := 3) (g := 2)
    (by decide) (by decide) (le_refl 1) (by decide)
  obtain ⟨hexists, hprefix⟩ := hsample threeQuarters 1 () 10 1 (some [])
  obtain ⟨data, hdata⟩ := hexists.mpr ⟨⟨rfl, rfl, rfl⟩, hdraws⟩
  obtain ⟨-, centres, -, hcentres, hshorter⟩ := hprefix data hdata
  have hfirst :
      handOver none (generate threeQuarters 1 () 2 1 2 10 1) = (.ok (data.take 2), none) :=
    hshorter none 1 le_rfl
  obtain ⟨M, hM, -⟩ := handOver_eq_ok_iff.mp (congrArg Prod.fst hfirst)
  exact ⟨⟨by decide, by decide, hwords⟩, data, centres, M, Prod.ext hdata hcentres, hfirst, hM,
    hlabels, hexact (fun s => (3, s)) 4 1 1 () 10 1 M [0, 1] hwords hM hlabels (by decide)⟩

end Mixture

end Clustering
