import Clustering.Proofs.Seeding.Runs

/-!
# Seeding computations that follow each other

`Seeding.Follows g a b` says that from the same source the seeding computation `b` returns the image
under `g` of what `a` returns, or fails alike, and leaves the source in the same state.  So the two
make the same draws, on different data.  Where what they return is the same, they are in step in the
sense of `Seeding.Agree` (`Agree.follows`).
-/

namespace Clustering.Seeding

variable {σ ω β β' γ γ' : Type}

/-- The second computation makes the draws of the first one, and has the image of its result. -/
def Follows (g : β → β') (a : Seeding σ ω β) (b : Seeding σ ω β') : Prop :=
  ∀ s t : Session σ ω, s.source = t.source →
    (b.run t).1 = (a.run s).1.map g ∧ (b.run t).2.source = (a.run s).2.source

variable {g : β → β'} {h : γ → γ'}

theorem follows_pure (v : β) : Follows g (pure v : Seeding σ ω β) (pure (g v)) :=
  fun _ _ hst => ⟨rfl, hst.symm⟩

theorem follows_throw (f : Failure) : Follows g (throw f : Seeding σ ω β) (throw f) :=
  fun _ _ hst => ⟨rfl, hst.symm⟩

theorem follows_attempt {r : Except Failure β} {r' : Except Failure β'} (hr : r' = r.map g) :
    Follows g (attempt r : Seeding σ ω β) (attempt r') :=
  fun _ _ hst => ⟨hr, hst.symm⟩

/-- Computations in step follow each other. -/
theorem Agree.follows {a b : Seeding σ ω β} (hab : Agree False a b) : Follows id a b := by
  intro s t hst
  obtain ⟨hr, hsource⟩ := (hab s t hst).resolve_right fun hlack => hlack.1
  exact ⟨by rw [← hr, Except.map_id, id], hsource.symm⟩

/-- What comes after has to follow for the values only that the first computation may return. -/
theorem Follows.bind_of_yields {a : Seeding σ ω β} {b : Seeding σ ω β'} {f : β → Seeding σ ω γ}
    {f' : β' → Seeding σ ω γ'} {Q : β → Prop} (hab : Follows g a b) (hQ : Yields a Q)
    (hf : ∀ v, Q v → Follows h (f v) (f' (g v))) : Follows h (a >>= f) (b >>= f') := by
  intro s t hst
  obtain ⟨hr, hsource⟩ := hab s t hst
  cases ha : a.run s with
  | mk ra s' =>
    cases hb : b.run t with
    | mk rb t' =>
      rw [ha, hb] at hr hsource
      cases ra with
      | error e =>
        obtain rfl : rb = .error e := hr
        rw [run_bind_of_error s ha, run_bind_of_error t hb]
        exact ⟨rfl, hsource⟩
      | ok v =>
        obtain rfl : rb = .ok (g v) := hr
        rw [run_bind_of_ok s ha, run_bind_of_ok t hb]
        exact hf v (hQ s v (congrArg Prod.fst ha)) s' t' hsource.symm

theorem Follows.bind {a : Seeding σ ω β} {b : Seeding σ ω β'} {f : β → Seeding σ ω γ}
    {f' : β' → Seeding σ ω γ'} (hab : Follows g a b) (hf : ∀ v, Follows h (f v) (f' (g v))) :
    Follows h (a >>= f) (b >>= f') :=
  hab.bind_of_yields (Q := fun _ => True) (.of_forall fun _ => trivial) fun v _ => hf v

/-- After notices, of which nothing is asked. -/
theorem Follows.record_bind {a : Seeding σ ω γ} {b : Seeding σ ω γ'} (hab : Follows h a b)
    (ns ns' : List (Notice ω)) :
    Follows h (record ns >>= fun _ => a) (record ns' >>= fun _ => b) :=
  (agree_record ns ns').follows.bind fun _ => hab

theorem Follows.foldlM {f : β → γ → Seeding σ ω β} {f' : β' → γ → Seeding σ ω β'} {Q : β → Prop}
    (hf : ∀ b u, Q b → Follows g (f b u) (f' (g b) u)) (hQ : ∀ b u, Q b → Yields (f b u) Q) :
    ∀ (us : List γ) (b : β), Q b → Follows g (us.foldlM f b) (us.foldlM f' (g b))
  | [], b, _ => follows_pure b
  | u :: us, b, hb => (hf b u hb).bind_of_yields (hQ b u hb) fun b' hb' =>
    Follows.foldlM hf hQ us b' hb'

theorem Follows.reportingLack {α α' : Type} {a : Seeding σ ω β} {b : Seeding σ ω β'}
    (hab : Follows g a b) (x : Matrix α) (x' : Matrix α') (hrows : x'.rows = x.rows)
    (hcols : x'.cols = x.cols) (clusters : ℕ) :
    Follows g (reportingLack x clusters a) (reportingLack x' clusters b) := by
  have hreport : ∀ f : Failure, Follows g (reportLack x clusters f : Seeding σ ω β)
      (reportLack x' clusters f) := by
    intro f
    unfold reportLack
    rw [hrows, hcols]
    cases f.kind with
    | resource => exact (follows_throw _).record_bind _ _
    | memory => exact (follows_throw _).record_bind _ _
    | _ => exact follows_throw _
  intro s t hst
  rw [Seeding.reportingLack, Seeding.reportingLack, run_tryCatch, run_tryCatch]
  obtain ⟨hr, hsource⟩ := hab s t hst
  cases ha : a.run s with
  | mk ra s' =>
    cases hb : b.run t with
    | mk rb t' =>
      rw [ha, hb] at hr hsource
      cases ra with
      | error e =>
        obtain rfl : rb = .error e := hr
        exact hreport e s' t' hsource.symm
      | ok v =>
        obtain rfl : rb = .ok (g v) := hr
        exact ⟨rfl, hsource⟩

end Clustering.Seeding
