import Mathlib.Logic.Basic

namespace Library

variable {State α β : Type} {s : State} {code : StateT State Option α}

/-- The code comes back, with what holds then. -/
def Yields (s : State) (code : StateT State Option α) (post : α → State → Prop) : Prop :=
  ∃ a s', code s = some (a, s') ∧ post a s'

namespace Yields

variable {post post' : α → State → Prop} {next : α → StateT State Option β} {final : β → State → Prop}

theorem pure {a : α} (holds : post a s) : Yields s (Pure.pure a) post := ⟨a, s, rfl, holds⟩

theorem after {a : α} {s' : State} (taken : code s = some (a, s')) (rest : Yields s' (next a) final) :
    Yields s (code >>= next) final := by
  obtain ⟨b, s'', left, done⟩ := rest
  exact ⟨b, s'', by simp only [Bind.bind, StateT.bind, taken, Option.bind, left], done⟩

theorem bind (first : Yields s code post) (second : ∀ a s', post a s' → Yields s' (next a) final) :
    Yields s (code >>= next) final := by
  obtain ⟨a, s', taken, holds⟩ := first
  exact .after taken (second a s' holds)

theorem get {next : State → StateT State Option β} (rest : Yields s (next s) final) :
    Yields s (MonadState.get >>= next) final := rest

theorem ite {cond : Prop} [Decidable cond] {other : StateT State Option α} (holds : cond → Yields s code post)
    (fails : ¬ cond → Yields s other post) : Yields s (if cond then code else other) post := by
  split
  · exact holds ‹_›
  · exact fails ‹_›

theorem mono (yields : Yields s code post) (weaker : ∀ a s', post a s' → post' a s') :
    Yields s code post' := by
  obtain ⟨a, s', taken, holds⟩ := yields
  exact ⟨a, s', taken, weaker a s' holds⟩

theorem and (first : Yields s code post) (second : Yields s code post') :
    Yields s code fun a s' => post a s' ∧ post' a s' := by
  obtain ⟨a, s', taken, holds⟩ := first
  obtain ⟨b, s'', taken', holds'⟩ := second
  rw [taken] at taken'
  cases taken'
  exact ⟨a, s', taken, holds, holds'⟩

theorem of_eq {a : α} {s' : State} (taken : code s = some (a, s')) (holds : post a s') :
    Yields s code post := ⟨a, s', taken, holds⟩

theorem congr {other : StateT State Option α} {s' : State} (same : code s = other s') (yields : Yields s' other post) :
    Yields s code post := by
  obtain ⟨a, s'', taken, holds⟩ := yields
  exact ⟨a, s'', same.trans taken, holds⟩

theorem outcome (yields : Yields s code post) {a : α} {s' : State} (taken : code s = some (a, s')) :
    post a s' := by
  obtain ⟨b, s'', taken', holds⟩ := yields
  rw [taken] at taken'
  cases taken'
  exact holds

theorem forM {ι : Type} {xs : List ι} {body : ι → StateT State Option PUnit} {inv : State → Prop}
    {adds : List β → State → State → Prop} {f : ι → List β} (refl : ∀ s, adds [] s s)
    (trans : ∀ l l' s s' s'', adds l s s' → adds l' s' s'' → adds (l ++ l') s s'')
    (step : ∀ x ∈ xs, ∀ s, inv s → Yields s (body x) fun _ s' => inv s' ∧ adds (f x) s s') (initial : inv s) :
    Yields s (xs.forM body) fun _ s' => inv s' ∧ adds (xs.flatMap f) s s' := by
  induction xs generalizing s with
  | nil => exact ⟨⟨⟩, s, rfl, initial, refl s⟩
  | cons x xs ih =>
    refine (step x List.mem_cons_self s initial).bind ?_
    rintro _ s' ⟨kept, first⟩
    refine (ih (fun y member => step y (List.mem_cons_of_mem x member)) kept).mono ?_
    rintro _ s'' ⟨kept', rest⟩
    exact ⟨kept', trans _ _ _ _ _ first rest⟩

theorem forM_range {n : Nat} {body : Nat → StateT State Option PUnit} (inv : Nat → State → Prop)
    (initial : inv 0 s) (step : ∀ i < n, ∀ s, inv i s → Yields s (body i) fun _ s' => inv (i + 1) s') :
    Yields s ((List.range n).forM body) fun _ s' => inv n s' := by
  have from' : ∀ count i s, i + count = n → inv i s →
      Yields s ((List.range' i count).forM body) fun _ s' => inv n s' := by
    intro count
    induction count with
    | zero =>
      rintro i s rfl holds
      exact ⟨⟨⟩, s, rfl, holds⟩
    | succ count ih =>
      intro i s left holds
      refine (step i (by omega) s holds).bind fun _ s' next => ?_
      exact ih (i + 1) s' (by omega) next
  rw [List.range_eq_range']
  exact from' n 0 s (Nat.zero_add n) initial

theorem mapM {ι : Type} {xs : List ι} {body : ι → StateT State Option β} {rel : State → State → Prop}
    (refl : ∀ s, rel s s) (trans : ∀ s s' s'', rel s s' → rel s' s'' → rel s s'')
    (step : ∀ x ∈ xs, ∀ s, Yields s (body x) fun _ s' => rel s s') :
    Yields s (xs.mapM body) fun _ s' => rel s s' := by
  induction xs generalizing s with
  | nil => exact ⟨[], s, rfl, refl s⟩
  | cons x xs ih =>
    rw [List.mapM_cons]
    refine (step x List.mem_cons_self s).bind fun b s' first => ?_
    refine (ih fun y member => step y (List.mem_cons_of_mem x member)).bind fun bs s'' rest => ?_
    exact .pure (trans s s' s'' first rest)

theorem findSomeM_none {ι : Type} {body : ι → StateT State Option (Option β)} {xs : List ι} (inv : State → Prop)
    (misses : ∀ y ∈ xs, ∀ s, inv s → Yields s (body y) fun answer s' => answer = none ∧ inv s') (initial : inv s) :
    Yields s (xs.findSomeM? body) fun answer s' => answer = none ∧ inv s' := by
  induction xs generalizing s with
  | nil => exact .pure ⟨rfl, initial⟩
  | cons y xs ih =>
    refine (misses y List.mem_cons_self s initial).bind ?_
    rintro _ s' ⟨rfl, kept⟩
    exact ih (fun z member => misses z (List.mem_cons_of_mem y member)) kept

theorem findSomeM {ι : Type} {body : ι → StateT State Option (Option β)} {before behind : List ι} {x : ι}
    {found : Option β → State → Prop} (inv : State → Prop)
    (misses : ∀ y ∈ before, ∀ s, inv s → Yields s (body y) fun answer s' => answer = none ∧ inv s')
    (hit : ∀ s, inv s → Yields s (body x) fun answer s' => answer ≠ none ∧ found answer s') (initial : inv s) :
    Yields s ((before ++ x :: behind).findSomeM? body) found := by
  induction before generalizing s with
  | nil =>
    refine (hit s initial).bind ?_
    rintro (- | b) s' ⟨some, holds⟩
    · exact absurd rfl some
    · exact .pure holds
  | cons y before ih =>
    refine (misses y List.mem_cons_self s initial).bind ?_
    rintro _ s' ⟨rfl, kept⟩
    exact ih (fun z member => misses z (List.mem_cons_of_mem y member)) kept

end Yields

theorem forM_congr {ι : Type} {xs : List ι} {body body' : ι → StateT State Option PUnit}
    (same : ∀ x ∈ xs, body x = body' x) : xs.forM body = xs.forM body' := by
  induction xs with
  | nil => rfl
  | cons x xs ih =>
    have rest := ih fun y member => same y (List.mem_cons_of_mem x member)
    change (body x >>= fun _ => xs.forM body) = body' x >>= fun _ => xs.forM body'
    rw [same x List.mem_cons_self, rest]

theorem mapM_reads {ι : Type} {xs : List ι} {body : ι → StateT State Option β} {value : ι → β}
    (reads : ∀ x ∈ xs, body x s = some (value x, s)) : xs.mapM body s = some (xs.map value, s) := by
  induction xs with
  | nil => rfl
  | cons x xs ih =>
    have first := reads x List.mem_cons_self
    have rest := ih fun y member => reads y (List.mem_cons_of_mem x member)
    rw [List.mapM_cons]
    simp only [Bind.bind, StateT.bind, Option.bind, first, rest]
    rfl

theorem bind_eq {next : α → StateT State Option β} {a : α} {s' : State} (taken : code s = some (a, s')) :
    (code >>= next) s = next a s' := by
  simp only [Bind.bind, StateT.bind, taken, Option.bind]

theorem bind_none {next : α → StateT State Option β} (stuck : code s = none) : (code >>= next) s = none := by
  simp only [Bind.bind, StateT.bind, stuck, Option.bind]

theorem bind_some {next : α → StateT State Option β} {b : β} {final : State}
    (taken : (code >>= next) s = some (b, final)) :
    ∃ a s', code s = some (a, s') ∧ next a s' = some (b, final) := by
  simp only [Bind.bind, StateT.bind] at taken
  obtain ⟨⟨a, s'⟩, first, rest⟩ := Option.bind_eq_some_iff.mp taken
  exact ⟨a, s', first, rest⟩

theorem discard_some {final : State} (taken : (discard code) s = some (PUnit.unit, final)) :
    ∃ a, code s = some (a, final) := by
  have mapped : (discard code) s = (code s).bind fun done => some (PUnit.unit, done.2) := rfl
  rw [mapped] at taken
  obtain ⟨⟨a, s'⟩, first, rest⟩ := Option.bind_eq_some_iff.mp taken
  cases rest
  exact ⟨a, first⟩

theorem discard_eq {a : α} {final : State} (taken : code s = some (a, final)) :
    (discard code) s = some (PUnit.unit, final) := by
  have mapped : (discard code) s = (code s).bind fun done => some (PUnit.unit, done.2) := rfl
  rw [mapped, taken]
  rfl

/-- What holds if the code comes back. -/
def Ensures (s : State) (code : StateT State Option α) (post : α → State → Prop) : Prop :=
  ∀ a s', code s = some (a, s') → post a s'

namespace Ensures

variable {post post' : α → State → Prop} {next : α → StateT State Option β} {final : β → State → Prop}

theorem pure {a : α} (holds : post a s) : Ensures s (Pure.pure a) post := by
  intro b s' taken
  cases taken
  exact holds

theorem bind (first : Ensures s code post) (second : ∀ a s', post a s' → Ensures s' (next a) final) :
    Ensures s (code >>= next) final := by
  intro b s'' taken
  obtain ⟨a, s', here, rest⟩ := bind_some taken
  exact second a s' (first a s' here) b s'' rest

theorem bind_none (first : Ensures s code post) (stuck : ∀ a s', post a s' → next a s' = none) :
    (code >>= next) s = none := by
  cases taken : code s with
  | none => exact Library.bind_none taken
  | some done => rw [bind_eq taken, stuck done.1 done.2 (first done.1 done.2 taken)]

theorem of_yields (yields : Yields s code post) : Ensures s code post := fun _ _ taken => yields.outcome taken

theorem of_none (stuck : code s = none) : Ensures s code post := by
  intro a s' taken
  rw [stuck] at taken
  cases taken

theorem mono (ensures : Ensures s code post) (weaker : ∀ a s', post a s' → post' a s') :
    Ensures s code post' :=
  fun a s' taken => weaker a s' (ensures a s' taken)

theorem and_yields (ensures : Ensures s code post) (yields : Yields s code post') :
    Yields s code fun a s' => post a s' ∧ post' a s' := by
  obtain ⟨a, s', taken, holds⟩ := yields
  exact ⟨a, s', taken, ensures a s' taken, holds⟩

theorem discard {post : State → Prop} (ensures : Ensures s code fun _ s' => post s') :
    Ensures s (Functor.discard code) fun _ s' => post s' := by
  intro _ s' taken
  obtain ⟨a, first⟩ := discard_some taken
  exact ensures a s' first

variable {ι : Type} {xs : List ι} {inv : State → Prop}

theorem forM {body : ι → StateT State Option PUnit}
    (step : ∀ x ∈ xs, ∀ s, inv s → Ensures s (body x) fun _ s' => inv s') (initial : inv s) :
    Ensures s (xs.forM body) fun _ s' => inv s' := by
  induction xs generalizing s with
  | nil => exact .pure initial
  | cons x xs ih =>
    refine .bind (step x List.mem_cons_self s initial) fun _ s' kept => ?_
    exact ih (fun y member => step y (List.mem_cons_of_mem x member)) kept

theorem forM_range {n : Nat} {body : Nat → StateT State Option PUnit} (inv : Nat → State → Prop)
    (initial : inv 0 s) (step : ∀ i < n, ∀ s, inv i s → Ensures s (body i) fun _ s' => inv (i + 1) s') :
    Ensures s ((List.range n).forM body) fun _ s' => inv n s' := by
  have from' : ∀ count i s, i + count = n → inv i s →
      Ensures s ((List.range' i count).forM body) fun _ s' => inv n s' := by
    intro count
    induction count with
    | zero =>
      rintro i s rfl holds
      exact .pure holds
    | succ count ih =>
      intro i s left holds
      refine .bind (step i (by omega) s holds) fun _ s' next => ?_
      exact ih (i + 1) s' (by omega) next
  rw [List.range_eq_range']
  exact from' n 0 s (Nat.zero_add n) initial

theorem forM_none {body : ι → StateT State Option PUnit}
    (step : ∀ x ∈ xs, ∀ s, inv s → Ensures s (body x) fun _ s' => inv s')
    (stuck : ∃ x ∈ xs, ∀ s, inv s → body x s = none) (initial : inv s) : xs.forM body s = none := by
  induction xs generalizing s with
  | nil =>
    rcases stuck with ⟨x, member, -⟩
    cases member
  | cons x xs ih =>
    rcases stuck with ⟨y, member, stuck⟩
    rcases List.mem_cons.mp member with rfl | member
    · exact Library.bind_none (stuck s initial)
    · refine (step x List.mem_cons_self s initial).bind_none fun _ s' kept => ?_
      exact ih (fun z inside => step z (List.mem_cons_of_mem x inside)) ⟨y, member, stuck⟩ kept

theorem findSomeM {body : ι → StateT State Option (Option β)} {found : β → Prop}
    (step : ∀ x ∈ xs, ∀ s, inv s → Ensures s (body x) fun answer s' => inv s' ∧ ∀ b ∈ answer, found b)
    (initial : inv s) :
    Ensures s (xs.findSomeM? body) fun answer s' => inv s' ∧ ∀ b ∈ answer, found b := by
  induction xs generalizing s with
  | nil => exact .pure ⟨initial, nofun⟩
  | cons x xs ih =>
    refine .bind (step x List.mem_cons_self s initial) ?_
    rintro (- | b) s' ⟨kept, right⟩
    · exact ih (fun y member => step y (List.mem_cons_of_mem x member)) kept
    · exact .pure ⟨kept, right⟩

end Ensures

/-- Code that does to an image of the state what it does to the state. -/
def Carries (f : State → State) (s : State) (code : StateT State Option α) : Prop :=
  Ensures s code fun a s' => code (f s) = some (a, f s')

namespace Carries

variable {f : State → State} {next : α → StateT State Option β}

theorem pure {a : α} : Carries f s (Pure.pure a) := Ensures.pure rfl

theorem bind (first : Carries f s code) (second : ∀ a s', code s = some (a, s') → Carries f s' (next a)) :
    Carries f s (code >>= next) := by
  intro b s'' taken
  obtain ⟨a, s', here, rest⟩ := bind_some taken
  rw [bind_eq (first a s' here)]
  exact second a s' here b s'' rest

end Carries

section Simulation

variable {View : Type} {γ δ : Type} (view : State → View)

/-- The code does to the state what the abstract code does to a view of it. -/
def Simulates (s : State) (code : StateT State Option α) (abstract : StateT View Option β)
    (post : α → β → State → Prop) : Prop :=
  match abstract (view s) with
  | none => code s = none
  | some (b, v) => Yields s code fun a s' => view s' = v ∧ post a b s'

namespace Simulates

variable {view} {abstract : StateT View Option β} {post post' : α → β → State → Prop}

theorem yields {b : β} {v : View} (simulates : Simulates view s code abstract post)
    (taken : abstract (view s) = some (b, v)) :
    Yields s code fun a s' => view s' = v ∧ post a b s' := by
  unfold Simulates at simulates
  rw [taken] at simulates
  exact simulates

theorem source {a : α} {s' : State} (simulates : Simulates view s code abstract post)
    (taken : code s = some (a, s')) : ∃ b, abstract (view s) = some (b, view s') ∧ post a b s' := by
  unfold Simulates at simulates
  cases image : abstract (view s) with
  | none =>
    rw [image] at simulates
    rw [simulates] at taken
    cases taken
  | some result =>
    obtain ⟨b, v⟩ := result
    rw [image] at simulates
    obtain ⟨same, holds⟩ := simulates.outcome taken
    exact ⟨b, by rw [same], holds⟩

theorem of_yields {b : β} (yields : Yields s code fun a s' => view s' = view s ∧ post a b s') :
    Simulates view s code (pure b) post := yields

theorem of_modify {f : View → View} {post : α → PUnit → State → Prop}
    (yields : Yields s code fun a s' => view s' = f (view s) ∧ post a ⟨⟩ s') :
    Simulates view s code (modify f) post := yields

theorem bind {next : α → StateT State Option γ} {abstractNext : β → StateT View Option δ}
    {final : γ → δ → State → Prop} (first : Simulates view s code abstract post)
    (second : ∀ a b s', abstract (view s) = some (b, view s') → post a b s' →
      Simulates view s' (next a) (abstractNext b) final) :
    Simulates view s (code >>= next) (abstract >>= abstractNext) final := by
  cases image : abstract (view s) with
  | none =>
    unfold Simulates at first ⊢
    rw [image] at first
    simp only [Bind.bind, StateT.bind, image, first, Option.bind]
  | some result =>
    obtain ⟨b, v⟩ := result
    obtain ⟨a, s', taken, same, holds⟩ := first.yields image
    subst same
    have rest := second a b s' image holds
    unfold Simulates at rest ⊢
    simp only [Bind.bind, StateT.bind, image, Option.bind]
    cases left : abstractNext b (view s') with
    | none =>
      rw [left] at rest
      simp only [taken]
      exact rest
    | some done =>
      rw [left] at rest
      obtain ⟨c, s'', after, kept⟩ := rest
      exact ⟨c, s'', by simp only [Bind.bind, StateT.bind, taken, Option.bind, after], kept⟩

theorem after {next : α → StateT State Option γ} {final : γ → β → State → Prop} {a : α} {s' : State}
    (taken : code s = some (a, s')) (same : view s' = view s)
    (rest : Simulates view s' (next a) abstract final) :
    Simulates view s (code >>= next) abstract final := by
  unfold Simulates at rest ⊢
  rw [same] at rest
  split at rest
  · simp only [Bind.bind, StateT.bind, taken, Option.bind]
    exact rest
  · exact .after taken rest

theorem finish {next : α → StateT State Option γ} {final : γ → β → State → Prop}
    (first : Simulates view s code abstract post)
    (rest : ∀ a b s', abstract (view s) = some (b, view s') → post a b s' →
      Yields s' (next a) fun c s'' => view s'' = view s' ∧ final c b s'') :
    Simulates view s (code >>= next) abstract final := by
  unfold Simulates
  split
  · rename_i ended
    unfold Simulates at first
    rw [ended] at first
    simp only [Bind.bind, StateT.bind, first, Option.bind]
  · rename_i b v taken
    refine (first.yields taken).bind ?_
    rintro a s' ⟨same, holds⟩
    refine (rest a b s' (by rw [taken, same]) holds).mono ?_
    rintro c s'' ⟨kept, done⟩
    exact ⟨kept.trans same, done⟩

theorem discard {post : β → State → Prop} (simulates : Simulates view s code abstract fun _ b s' => post b s') :
    Simulates view s (Functor.discard code) abstract fun _ b s' => post b s' := by
  have split : Functor.discard code = code >>= fun _ => Pure.pure PUnit.unit := rfl
  rw [split]
  exact simulates.finish fun _ b s' _ holds => .pure ⟨rfl, holds⟩

theorem findSomeM_head {ι : Type} {body : ι → StateT State Option (Option γ)} {x : ι} {xs : List ι}
    {found : Option γ → β → State → Prop} (head : xs.head? = some x)
    (first : Simulates view s (body x) abstract fun answer b s' => answer ≠ none ∧ found answer b s') :
    Simulates view s (xs.findSomeM? body) abstract found := by
  cases xs with
  | nil => cases head
  | cons y xs =>
    cases head
    refine first.finish ?_
    rintro (- | c) b s' - ⟨some, holds⟩
    · exact absurd rfl some
    · exact .pure ⟨rfl, holds⟩

theorem congr {abstract' : StateT View Option β} (simulates : Simulates view s code abstract post)
    (same : abstract' (view s) = abstract (view s)) : Simulates view s code abstract' post := by
  unfold Simulates at simulates ⊢
  rw [same]
  exact simulates

theorem mono (simulates : Simulates view s code abstract post)
    (weaker : ∀ a b s', abstract (view s) = some (b, view s') → post a b s' → post' a b s') :
    Simulates view s code abstract post' := by
  unfold Simulates at simulates ⊢
  split at simulates
  · exact simulates
  · rename_i b v taken
    refine Yields.mono simulates fun a s' holds => ⟨holds.1, weaker a b s' ?_ holds.2⟩
    rw [taken, holds.1]

end Simulates

end Simulation

end Library
