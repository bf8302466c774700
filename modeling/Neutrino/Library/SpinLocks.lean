import Mathlib.Logic.Function.Basic

namespace Library

/-- Data together with the flags of the locks around it. -/
structure Guarded (Lock State : Type) where
  held : Lock → Bool
  data : State

namespace Guarded

variable {Lock State : Type}

def withData (g : Guarded Lock State) (data : State) : Guarded Lock State :=
  { g with data := data }

@[simp] theorem withData_data (g : Guarded Lock State) (data : State) :
    (g.withData data).data = data := rfl

@[simp] theorem withData_held (g : Guarded Lock State) (data : State) :
    (g.withData data).held = g.held := rfl

@[simp] theorem withData_withData (g : Guarded Lock State) (first second : State) :
    (g.withData first).withData second = g.withData second := rfl

@[simp] theorem withData_self (g : Guarded Lock State) : g.withData g.data = g := rfl

variable [DecidableEq Lock]

def acquire (g : Guarded Lock State) (l : Lock) : Guarded Lock State :=
  { g with held := Function.update g.held l true }

def release (g : Guarded Lock State) (l : Lock) : Guarded Lock State :=
  { g with held := Function.update g.held l false }

@[simp] theorem acquire_data (g : Guarded Lock State) (l : Lock) : (g.acquire l).data = g.data := rfl

@[simp] theorem release_data (g : Guarded Lock State) (l : Lock) : (g.release l).data = g.data := rfl

@[simp] theorem acquire_held (g : Guarded Lock State) (l other : Lock) :
    (g.acquire l).held other = if other = l then true else g.held other :=
  Function.update_apply g.held l true other

@[simp] theorem release_held (g : Guarded Lock State) (l other : Lock) :
    (g.release l).held other = if other = l then false else g.held other :=
  Function.update_apply g.held l false other

theorem release_acquire (g : Guarded Lock State) (l : Lock) (free : g.held l = false) (data : State) :
    ((g.acquire l).withData data).release l = g.withData data := by
  simp only [acquire, withData, release, Function.update_idem, ← free, Function.update_eq_self]

end Guarded

/-- Code that takes spin locks while nobody else runs: `.error lock` is a wait for a lock that
    is already held, and such a wait never ends. -/
abbrev Spin (Lock State : Type) := StateT (Guarded Lock State) (Except Lock)

variable {Lock State α β : Type} [DecidableEq Lock]

def lock (l : Lock) : Spin Lock State Unit := fun g =>
  if g.held l then .error l else .ok ((), g.acquire l)

def unlock (l : Lock) : Spin Lock State Unit := fun g => .ok ((), g.release l)

/-- A scope that holds the lock and lets it go on every way out. -/
def retain (l : Lock) (body : Spin Lock State α) : Spin Lock State α := do
  lock l
  let result ← body
  unlock l
  return result

def modifyData (f : State → State) : Spin Lock State Unit := fun g => .ok ((), g.withData (f g.data))

def getData : Spin Lock State State := fun g => .ok (g.data, g)

def isHeld (l : Lock) : Spin Lock State Bool := fun g => .ok (g.held l, g)

/-- The code comes back with `result`, `data` and the locks it found. -/
def Returns (g : Guarded Lock State) (code : Spin Lock State α) (result : α) (data : State) : Prop :=
  code g = .ok (result, g.withData data)

namespace Returns

variable {g : Guarded Lock State} {l : Lock} {code body : Spin Lock State α}
  {next : α → Spin Lock State β} {a : α} {b : β} {middle final : State}

omit [DecidableEq Lock] in
theorem pure (a : α) : Returns g (Pure.pure a) a g.data := rfl

omit [DecidableEq Lock] in
theorem modifyData (f : State → State) : Returns g (modifyData f) () (f g.data) := rfl

omit [DecidableEq Lock] in
theorem bind (first : Returns g code a middle)
    (second : Returns (g.withData middle) (next a) b final) :
    Returns g (code >>= next) b final := by
  unfold Returns at first second ⊢
  simp only [Bind.bind, StateT.bind, first, Except.bind]
  exact second

omit [DecidableEq Lock] in
theorem getData {next : State → Spin Lock State β} (rest : Returns g (next g.data) b final) :
    Returns g (getData >>= next) b final :=
  bind rfl rest

omit [DecidableEq Lock] in
theorem isHeld {next : Bool → Spin Lock State β} (rest : Returns g (next (g.held l)) b final) :
    Returns g (isHeld l >>= next) b final :=
  bind rfl rest

theorem retain (free : g.held l = false) (inner : Returns (g.acquire l) body a final) :
    Returns g (retain l body) a final := by
  unfold Returns at inner ⊢
  simp only [Library.retain, lock, unlock, Bind.bind, StateT.bind, free, Bool.false_eq_true,
    ↓reduceIte, Except.bind, inner, g.release_acquire l free]
  rfl

omit [DecidableEq Lock] in
theorem unique {outcome : α × Guarded Lock State} (returns : Returns g code a final)
    (taken : code g = .ok outcome) : outcome = (a, g.withData final) := by
  rw [returns] at taken
  cases taken
  rfl

omit [DecidableEq Lock] in
theorem toOption (returns : Returns g code a final) :
    (code g).toOption = some (a, g.withData final) := by
  unfold Returns at returns
  rw [returns]
  rfl

end Returns

theorem ok_of_toOption {ε : Type} {outcome : Except ε α} {a : α} (some : outcome.toOption = some a) :
    outcome = .ok a := by
  cases outcome with
  | error e => cases some
  | ok b =>
    cases some
    rfl

omit [DecidableEq Lock] in
theorem bind_ok {g : Guarded Lock State} {code : Spin Lock State α} {next : α → Spin Lock State β}
    {outcome : β × Guarded Lock State} (taken : (code >>= next) g = .ok outcome) :
    ∃ a middle, code g = .ok (a, middle) ∧ next a middle = .ok outcome := by
  cases first : code g with
  | error l =>
    simp only [Bind.bind, StateT.bind, first, Except.bind] at taken
    cases taken
  | ok pair =>
    simp only [Bind.bind, StateT.bind, first, Except.bind] at taken
    exact ⟨pair.1, pair.2, rfl, taken⟩

theorem retain_ok {g g' : Guarded Lock State} {l : Lock} {body : Spin Lock State α} {a : α}
    (taken : retain l body g = .ok (a, g')) :
    g.held l = false ∧ ∃ inner, body (g.acquire l) = .ok (a, inner) ∧ g' = inner.release l := by
  obtain ⟨_, locked, first, rest⟩ := bind_ok taken
  obtain ⟨result, inner, inside, last⟩ := bind_ok rest
  unfold lock at first
  split at first
  · cases first
  · rename_i free
    cases first
    cases last
    exact ⟨by simpa using free, inner, inside, rfl⟩

theorem returns_of_retain {g g' : Guarded Lock State} {l : Lock} {body : Spin Lock State Unit}
    {k : State} (taken : retain l body g = .ok ((), g'))
    (inner : ∀ h, body (g.acquire l) = .ok ((), h) → h = (g.acquire l).withData k) :
    g' = g.withData k := by
  obtain ⟨free, h, inside, rfl⟩ := retain_ok taken
  rw [inner h inside, g.release_acquire l free]

end Library
