import Statechart.Fault

/-!
Runs that succeed. Reading labels and working on a chart both thread a state and may fail;
`Runs x s a s'` says that `x` succeeds from `s` with `a` and leaves `s'`, and `Fails x s s'` that it
fails and leaves `s'`. A run of a sequence of steps is taken apart by `runs_bind` and `fails_bind`.
-/

namespace Statechart

variable {σ α β : Type}

def Runs (x : ExceptT Fault (StateM σ) α) (s : σ) (a : α) (s' : σ) : Prop :=
  x.run.run s = (.ok a, s')

theorem runs_pure {a b : α} {s s' : σ} :
    Runs (pure a : ExceptT Fault (StateM σ) α) s b s' ↔ a = b ∧ s = s' := by
  constructor
  · intro h
    cases h
    exact ⟨rfl, rfl⟩
  · rintro ⟨rfl, rfl⟩
    rfl

theorem run_bind (x : ExceptT Fault (StateM σ) α) (f : α → ExceptT Fault (StateM σ) β) (s : σ) :
    (x >>= f).run.run s =
      match x.run.run s with
      | (.ok a, t) => (f a).run.run t
      | (.error e, t) => (.error e, t) := by
  show (ExceptT.bind x f).run.run s = _
  simp only [ExceptT.bind, ExceptT.run, ExceptT.mk]
  show (ExceptT.bindCont f ((StateT.run x s).1)).run (StateT.run x s).2 = _
  rcases StateT.run x s with ⟨_ | _, t⟩ <;> rfl

theorem runs_bind {x : ExceptT Fault (StateM σ) α} {f : α → ExceptT Fault (StateM σ) β}
    {s s' : σ} {b : β} :
    Runs (x >>= f) s b s' ↔ ∃ a t, Runs x s a t ∧ Runs (f a) t b s' := by
  constructor
  · intro h
    unfold Runs at h
    rw [run_bind] at h
    rcases hx : x.run.run s with ⟨_ | a, t⟩
    · rw [hx] at h
      cases h
    · rw [hx] at h
      exact ⟨a, t, hx, h⟩
  · rintro ⟨a, t, hx, hf⟩
    unfold Runs at hx ⊢
    rw [run_bind, hx]
    exact hf

theorem not_runs_throw {f : Fault} {s s' : σ} {a : α} :
    ¬ Runs (throw f : ExceptT Fault (StateM σ) α) s a s' := by
  intro h
  cases h

theorem runs_of_toOption {x : ExceptT Fault (StateM σ) α} {s : σ} {a : α}
    (h : (x.run.run s).1.toOption = some a) : Runs x s a (x.run.run s).2 := by
  refine Prod.ext ?_ rfl
  revert h
  cases (x.run.run s).1 with
  | error f => exact fun h => by cases h
  | ok b =>
    intro h
    cases h
    rfl

/-- A step that does not touch the state. -/
theorem runs_lift {x : Except Fault α} {s s' : σ} {a : α} :
    Runs (liftM x : ExceptT Fault (StateM σ) α) s a s' ↔ x = .ok a ∧ s = s' := by
  constructor
  · intro h
    cases x with
    | error f => cases h
    | ok b => cases h; exact ⟨rfl, rfl⟩
  · rintro ⟨rfl, rfl⟩
    rfl

theorem runs_map {x : ExceptT Fault (StateM σ) α} {f : α → β} {s s' : σ} {b : β} :
    Runs (f <$> x) s b s' ↔ ∃ a, Runs x s a s' ∧ f a = b := by
  rw [map_eq_pure_bind, runs_bind]
  constructor
  · rintro ⟨a, t, hx, hf⟩
    obtain ⟨rfl, rfl⟩ := runs_pure.mp hf
    exact ⟨a, hx, rfl⟩
  · rintro ⟨a, hx, rfl⟩
    exact ⟨a, s', hx, runs_pure.mpr ⟨rfl, rfl⟩⟩

theorem runs_get {s t s' : σ} :
    Runs (get : ExceptT Fault (StateM σ) σ) s t s' ↔ s = t ∧ s = s' := by
  constructor
  · intro h
    cases h
    exact ⟨rfl, rfl⟩
  · rintro ⟨rfl, rfl⟩
    rfl

theorem runs_modify {f : σ → σ} {s s' : σ} {u : PUnit} :
    Runs (modify f : ExceptT Fault (StateM σ) PUnit) s u s' ↔ f s = s' := by
  constructor
  · intro h
    cases h
    rfl
  · rintro rfl
    rfl

/-- A run over a list is a run for its head and a run for the rest. -/
theorem runs_mapM_cons {f : α → ExceptT Fault (StateM σ) β} {x : α} {xs : List α} {s s' : σ}
    {ys : List β} :
    Runs ((x :: xs).mapM f) s ys s' ↔
      ∃ y t zs, Runs (f x) s y t ∧ Runs (xs.mapM f) t zs s' ∧ ys = y :: zs := by
  rw [List.mapM_cons]
  constructor
  · intro h
    obtain ⟨y, t, hy, h⟩ := runs_bind.mp h
    obtain ⟨zs, u, hz, h⟩ := runs_bind.mp h
    obtain ⟨rfl, rfl⟩ := runs_pure.mp h
    exact ⟨y, t, zs, hy, hz, rfl⟩
  · rintro ⟨y, t, zs, hy, hz, rfl⟩
    exact runs_bind.mpr ⟨y, t, hy, runs_bind.mpr ⟨zs, s', hz, runs_pure.mpr ⟨rfl, rfl⟩⟩⟩

/-- What holds before each run over a list, and is kept by it, holds at the end. -/
theorem runs_mapM_keeps {f : α → ExceptT Fault (StateM σ) β} {P : σ → Prop} {xs : List α}
    (hf : ∀ x ∈ xs, ∀ {s y t}, P s → Runs (f x) s y t → P t) {s s' : σ} {ys : List β} (hs : P s)
    (h : Runs (xs.mapM f) s ys s') : P s' := by
  induction xs generalizing s ys with
  | nil =>
    rw [List.mapM_nil] at h
    obtain ⟨-, rfl⟩ := runs_pure.mp h
    exact hs
  | cons x xs ih =>
    obtain ⟨y, t, zs, hy, hz, -⟩ := runs_mapM_cons.mp h
    exact ih (fun x hx => hf x (List.mem_cons_of_mem _ hx)) (hf x (List.mem_cons_self ..) hs hy) hz

/-- Every result of a run over a list is the result of a run for a member. -/
theorem mem_of_runs_mapM {f : α → ExceptT Fault (StateM σ) β} {xs : List α} {s s' : σ} {ys : List β}
    (h : Runs (xs.mapM f) s ys s') : ∀ y ∈ ys, ∃ x ∈ xs, ∃ t t', Runs (f x) t y t' := by
  induction xs generalizing s ys with
  | nil =>
    rw [List.mapM_nil] at h
    obtain ⟨rfl, -⟩ := runs_pure.mp h
    simp
  | cons x xs ih =>
    obtain ⟨y, t, zs, hy, hz, rfl⟩ := runs_mapM_cons.mp h
    intro u hu
    rcases List.mem_cons.mp hu with rfl | hu
    · exact ⟨x, List.mem_cons_self .., s, t, hy⟩
    · obtain ⟨x', hx', hrun⟩ := ih hz u hu
      exact ⟨x', List.mem_cons_of_mem _ hx', hrun⟩

/-- What can be told of each result from its member can be told of all. -/
theorem runs_mapM_map {γ : Type} {f : α → ExceptT Fault (StateM σ) β} {g : α → γ} {h : β → γ}
    (hf : ∀ {x s y t}, Runs (f x) s y t → h y = g x) {xs : List α} {s s' : σ} {ys : List β}
    (hrun : Runs (xs.mapM f) s ys s') : ys.map h = xs.map g := by
  induction xs generalizing s ys with
  | nil =>
    rw [List.mapM_nil] at hrun
    obtain ⟨rfl, -⟩ := runs_pure.mp hrun
    rfl
  | cons x xs ih =>
    obtain ⟨y, t, zs, hy, hz, rfl⟩ := runs_mapM_cons.mp hrun
    rw [List.map_cons, List.map_cons, hf hy, ih hz]

/-! ## Runs that fail -/

def Fails (x : ExceptT Fault (StateM σ) α) (s s' : σ) : Prop := ∃ e, x.run.run s = (.error e, s')

theorem Fails.not_runs {x : ExceptT Fault (StateM σ) α} {s s' s'' : σ} {a : α} (h : Fails x s s') :
    ¬ Runs x s a s'' := by
  obtain ⟨e, h⟩ := h
  intro hruns
  cases h.symm.trans hruns

theorem runs_or_fails (x : ExceptT Fault (StateM σ) α) (s : σ) :
    (∃ a s', Runs x s a s') ∨ ∃ s', Fails x s s' := by
  rcases hx : x.run.run s with ⟨e | a, s'⟩
  · exact .inr ⟨s', e, hx⟩
  · exact .inl ⟨a, s', hx⟩

theorem fails_bind {x : ExceptT Fault (StateM σ) α} {f : α → ExceptT Fault (StateM σ) β}
    {s s' : σ} :
    Fails (x >>= f) s s' ↔ Fails x s s' ∨ ∃ a t, Runs x s a t ∧ Fails (f a) t s' := by
  unfold Fails
  rw [run_bind]
  constructor
  · rintro ⟨e, h⟩
    rcases hx : x.run.run s with ⟨e' | a, t⟩
    · rw [hx] at h
      cases h
      exact .inl ⟨e, rfl⟩
    · rw [hx] at h
      exact .inr ⟨a, t, hx, e, h⟩
  · rintro (⟨e, hx⟩ | ⟨a, t, hx, e, h⟩)
    · exact ⟨e, by rw [hx]⟩
    · unfold Runs at hx
      exact ⟨e, by rw [hx]; exact h⟩

theorem fails_throw {f : Fault} {s s' : σ} :
    Fails (throw f : ExceptT Fault (StateM σ) α) s s' ↔ s' = s := by
  constructor
  · rintro ⟨e, h⟩
    cases h
    rfl
  · rintro rfl
    exact ⟨f, rfl⟩

theorem fails_lift {x : Except Fault α} {s s' : σ}
    (h : Fails (liftM x : ExceptT Fault (StateM σ) α) s s') : s' = s := by
  obtain ⟨e, h⟩ := h
  cases x with
  | error f => cases h; rfl
  | ok a => cases h

theorem fails_map {x : ExceptT Fault (StateM σ) α} {f : α → β} {s s' : σ}
    (h : Fails (f <$> x) s s') : Fails x s s' := by
  rw [map_eq_pure_bind] at h
  rcases fails_bind.mp h with h | ⟨a, t, -, e, h⟩
  · exact h
  · cases h

/-! ## Steps without a state -/

theorem bind_eq_ok {x : Except Fault α} {f : α → Except Fault β} {b : β} :
    x >>= f = .ok b ↔ ∃ a, x = .ok a ∧ f a = .ok b := by
  constructor
  · intro h
    cases x with
    | error e => cases h
    | ok a => exact ⟨a, rfl, h⟩
  · rintro ⟨a, rfl, h⟩
    exact h

theorem toOption_eq_some {x : Except Fault α} {a : α} : x.toOption = some a ↔ x = .ok a := by
  cases x <;> simp [Except.toOption]

theorem mem_of_mapM_eq_ok {f : α → Except Fault β} {xs : List α} {ys : List β}
    (h : xs.mapM f = .ok ys) : ∀ y ∈ ys, ∃ x ∈ xs, f x = .ok y := by
  induction xs generalizing ys with
  | nil =>
    cases h
    simp
  | cons x xs ih =>
    rw [List.mapM_cons] at h
    obtain ⟨y, hy, h⟩ := bind_eq_ok.mp h
    obtain ⟨zs, hz, h⟩ := bind_eq_ok.mp h
    cases h
    intro u hu
    rcases List.mem_cons.mp hu with rfl | hu
    · exact ⟨x, List.mem_cons_self .., hy⟩
    · obtain ⟨x', hx', h⟩ := ih hz u hu
      exact ⟨x', List.mem_cons_of_mem _ hx', h⟩

/-- If every step succeeds, all do. -/
theorem exists_ok_of_mapM {f : α → Except Fault β} {xs : List α} {ys : List β}
    (h : xs.mapM f = .ok ys) : ∀ x ∈ xs, ∃ y, f x = .ok y := by
  induction xs generalizing ys with
  | nil => simp
  | cons x xs ih =>
    rw [List.mapM_cons] at h
    obtain ⟨y, hy, h⟩ := bind_eq_ok.mp h
    obtain ⟨zs, hz, -⟩ := bind_eq_ok.mp h
    intro u hu
    rcases List.mem_cons.mp hu with rfl | hu
    · exact ⟨y, hy⟩
    · exact ih hz u hu

theorem mapM_eq_map {f : α → Except Fault β} {g : α → β} {xs : List α}
    (h : ∀ x ∈ xs, f x = .ok (g x)) : xs.mapM f = .ok (xs.map g) := by
  induction xs with
  | nil => rfl
  | cons x xs ih =>
    rw [List.mapM_cons, h x (List.mem_cons_self ..), ih fun x hx => h x (List.mem_cons_of_mem _ hx)]
    rfl

/-- What can be told of the result of each step can be told of all. -/
theorem eq_map_of_mapM_eq_ok {f : α → Except Fault β} {g : α → β} {xs : List α} {ys : List β}
    (hf : ∀ x y, f x = .ok y → y = g x) (h : xs.mapM f = .ok ys) : ys = xs.map g := by
  induction xs generalizing ys with
  | nil =>
    cases h
    rfl
  | cons x xs ih =>
    rw [List.mapM_cons] at h
    obtain ⟨y, hy, h⟩ := bind_eq_ok.mp h
    obtain ⟨zs, hz, h⟩ := bind_eq_ok.mp h
    cases h
    rw [List.map_cons, hf x y hy, ih hz]

/-- If steps can fail in one way only, and one does, that is how all end. -/
theorem mapM_eq_error {f : α → Except Fault β} {e : Fault} {xs : List α}
    (h : ∀ x ∈ xs, (∃ y, f x = .ok y) ∨ f x = .error e) (hx : ∃ x ∈ xs, f x = .error e) :
    xs.mapM f = .error e := by
  induction xs with
  | nil => simp at hx
  | cons x xs ih =>
    rw [List.mapM_cons]
    rcases h x (List.mem_cons_self ..) with ⟨y, hy⟩ | hfail
    · have hrest : ∃ x ∈ xs, f x = .error e := by
        obtain ⟨z, hz, hfail⟩ := hx
        rcases List.mem_cons.mp hz with rfl | hz
        · rw [hy] at hfail
          cases hfail
        · exact ⟨z, hz, hfail⟩
      rw [hy, ih (fun x hx => h x (List.mem_cons_of_mem _ hx)) hrest]
      rfl
    · rw [hfail]
      rfl

end Statechart
