import Neutrino.Virtual.Gate

namespace Neutrino.Virtual

open Library

section Agreement

variable {mem mem' : Mem} {t r f g : Frame} {xs ys w : List Index} {i : Index} {e : W64}

theorem follow_eq_of_agree
    (agree : ∀ ys g j h, follow branches mem 3 r ys = some g →
      (branches (3 - ys.length) j (mem' g j) = .table h ↔ branches (3 - ys.length) j (mem g j) = .table h)) :
    follow branches mem' 3 r xs = some f ↔ follow branches mem 3 r xs = some f := by
  have forward : ∀ {zs h}, follow branches mem' 3 r zs = some h → follow branches mem 3 r zs = some h := by
    intro zs h
    exact follow_of_edits fun ys j g h reached => (agree ys g j h reached).mp
  refine ⟨forward, follow_of_edits fun ys j g h reached => ?_⟩
  exact (agree ys g j h (forward reached)).mpr

theorem follow_row (agree : ∀ g, IsTable mem r g → mem' g = mem g) :
    follow branches mem' 3 r xs = some f ↔ follow branches mem 3 r xs = some f := by
  apply follow_eq_of_agree
  intro ys g j h reached
  rw [agree g ⟨ys, reached⟩]

theorem lookup_row (agree : ∀ g, IsTable mem r g → mem' g = mem g) (four : w.length = 4) :
    lookup branches mem' r w = lookup branches mem r w := by
  apply lookup_of_edits
  intro xs j rest g _ reached
  rw [four] at reached
  exact .inl (congrFun (agree g ⟨xs, reached⟩) j)

theorem follow_leaf (aligned : Aligned mem t r) (place : follow branches mem 3 t xs = some g)
    (last : xs.length = 3) :
    follow branches (mem.write g i e) 3 r ys = some f ↔ follow branches mem 3 r ys = some f := by
  apply follow_eq_of_agree
  intro zs k j h reached
  by_cases edited : k = g ∧ j = i
  · obtain ⟨rfl, rfl⟩ := edited
    cases aligned xs zs k place reached
    rw [last]
    exact ⟨fun found => absurd found branches_last, fun found => absurd found branches_last⟩
  · rw [write_of_ne edited]

theorem lookup_leaf (aligned : Aligned mem t r) (place : follow branches mem 3 t xs = some g)
    (last : xs.length = 3) (four : w.length = 4) (other : w ≠ xs ++ [i]) :
    lookup branches (mem.write g i e) r w = lookup branches mem r w := by
  apply lookup_of_edits
  intro zs j rest k split reached
  rw [four] at reached
  refine .inl (write_of_ne ?_)
  rintro ⟨rfl, rfl⟩
  cases aligned xs zs k place reached
  have done : rest = [] := by
    have length := congrArg List.length split
    rw [List.length_append, List.length_cons] at length
    exact List.length_eq_zero_iff.mp (by omega)
  rw [done] at split
  exact other split

theorem Way.rows (way : Way mem r xs g ys) (same : ∀ g, IsTable mem r g → mem' g = mem g) : plain mem' g ys = true := by
  induction ys generalizing xs g with
  | nil => rfl
  | cons i ys ih =>
    rw [plain, same g ⟨xs, way.place⟩]
    cases present : isPresent (mem g i) with
    | false => rfl
    | true =>
      obtain ⟨links, next⟩ := way.step present
      rw [ih next, links.small]
      rfl

theorem Tree.aligned (tree : Tree mem t) : Aligned mem t t := fun xs ys f first second =>
  tree xs ys f first second

end Agreement

/-- The core with an entry in the slot for other spaces. -/
def Core.setOther (c : Core) (e : W64) : Core := c.withMem (c.mem.write c.cr3 recurseOther e)

/-- The core as the edit of a space finds and leaves it: with the slot closed, unless the space is
    the active one. -/
def Core.shut (c : Core) (t : Frame) : Core := if t = c.cr3 then c else c.setOther 0#64

section Other

variable {c c' : Core} {t r f g : Frame} {i : Index} {e e' : W64} {xs : List Index} {prop : PageProperties}

theorem Space.of_follow {mem : Mem} (space : Space c r)
    (old : ∀ xs f, follow branches mem 3 r xs = some f → follow branches c.mem 3 r xs = some f) :
    Space (c.withMem mem) r where
  tree xs ys f first second := space.tree xs ys f (old xs f first) (old ys f second)
  fresh f member := by
    rintro ⟨xs, path⟩
    exact space.fresh f member ⟨xs, old xs f path⟩
  nodup := space.nodup

theorem setOther_setOther : (c.setOther e).setOther e' = c.setOther e' := by
  have same : (c.mem.write c.cr3 recurseOther e).write c.cr3 recurseOther e' =
      c.mem.write c.cr3 recurseOther e' := by
    simp only [Mem.write, Function.update_idem, Function.update_self]
  simp only [Core.setOther, Core.withMem, same]

theorem follow_close (path : follow branches (c.setOther 0#64).mem 3 r xs = some f) :
    follow branches c.mem 3 r xs = some f := by
  refine follow_of_edits (fun ys j g h _ found => ?_) path
  by_cases edited : g = c.cr3 ∧ j = recurseOther
  · obtain ⟨rfl, rfl⟩ := edited
    have absent := (branches_table found).1.present
    simp [Core.setOther, Core.withMem, isPresent_zero] at absent
  · rw [← found]
    exact congrArg _ (write_of_ne edited).symm

theorem Space.close (space : Space c r) : Space (c.setOther 0#64) r :=
  space.of_follow fun _ _ path => follow_close path

theorem Space.shut (space : Space c r) (t : Frame) : Space (c.shut t) r := by
  unfold Core.shut
  split
  · exact space
  · exact space.close

theorem Aligned.shut (aligned : Aligned c.mem t r) (k : Frame) : Aligned (c.shut k).mem t r := by
  unfold Core.shut
  split
  · exact aligned
  · exact fun xs ys f first second => aligned xs ys f (follow_close first) (follow_close second)

theorem setOther_row (apart : ¬ IsTable c.mem r c.cr3) (table : IsTable c.mem r g) :
    (c.setOther e).mem g = c.mem g := by
  refine Function.update_of_ne ?_ _ _
  rintro rfl
  exact apart table

theorem shut_row (apart : t ≠ c.cr3 → ¬ IsTable c.mem t c.cr3) (table : IsTable c.mem t g) :
    (c.shut t).mem g = c.mem g := by
  unfold Core.shut
  split
  · rfl
  · next inactive => exact setOther_row (apart inactive) table

theorem follow_setOther (apart : ¬ IsTable c.mem r c.cr3) :
    follow branches (c.setOther e).mem 3 r xs = some f ↔ follow branches c.mem 3 r xs = some f :=
  follow_row fun _ => setOther_row apart

theorem setOther_apart (apart : ¬ IsTable c.mem r c.cr3) : ¬ IsTable (c.setOther e).mem r c.cr3 := by
  rintro ⟨xs, path⟩
  exact apart ⟨xs, (follow_setOther apart).mp path⟩

theorem ensure_setOther (apart : g ≠ c.cr3) (unused : c.cr3 ∉ c.supply) :
    ensure prop g i (c.setOther e) = (ensure prop g i c).map fun done => (done.1, done.2.setOther e) := by
  have same : (c.setOther e).mem g i = c.mem g i := write_of_ne fun both => apart both.1
  unfold ensure create
  rw [same]
  split
  · rfl
  · cases taken : c.supply with
    | nil => simp [Core.setOther, Core.withMem, taken]
    | cons f rest =>
      have other : c.cr3 ≠ f := by
        rintro rfl
        exact unused (first_mem taken)
      have swap : (c.mem.write c.cr3 recurseOther e).link g i f prop =
          (c.mem.link g i f prop).write c.cr3 recurseOther e := by
        funext h j
        by_cases blank : h = f
        · subst blank
          rw [link_blank, write_of_ne fun both => other both.1.symm, link_blank]
        · by_cases here : h = g ∧ j = i
          · obtain ⟨rfl, rfl⟩ := here
            rw [link_self blank, write_of_ne fun both => apart both.1, link_self blank]
          · rw [link_of_ne blank here, write_apply, write_apply, link_of_ne blank here]
      simp only [Core.setOther, Core.withMem, taken, Option.map_some, Core.link, Core.withSupply, swap]

theorem descend_setOther {ys : List Index} (space : Space c t) (way : Way c.mem t xs g ys)
    (apart : ¬ IsTable c.mem t c.cr3) (unused : c.cr3 ∉ c.supply) :
    descend prop g ys (c.setOther e) =
      (descend prop g ys c).map fun done => (done.1, done.2.setOther e) := by
  induction ys generalizing xs g c with
  | nil => rfl
  | cons i ys ih =>
    have root : g ≠ c.cr3 := by
      rintro rfl
      exact apart ⟨xs, way.place⟩
    simp only [descend, Bind.bind, StateT.bind, ensure_setOther root unused]
    cases first : ensure prop g i c with
    | none => rfl
    | some done =>
      obtain ⟨f, c1⟩ := done
      obtain ⟨grows, -, next⟩ := way.ensure space first
      obtain ⟨same, -⟩ := grows.other
      simp only [Option.map_some, Option.bind]
      apply ih (grows.space space space) next
      · rw [same]
        intro table
        rcases grows.tables space space table with old | new
        · exact apart old
        · exact unused new
      · rw [same]
        exact fun member => unused (grows.supply member)

end Other

/-- What the edit of a space needs besides the space. -/
structure Ready (c : Core) (t mirror : Frame) : Prop where
  active : Links c.mem c.cr3 recurseActive c.cr3
  backed : Backed c mirror
  apart : t ≠ c.cr3 → ¬ IsTable c.mem t c.cr3

/-- The space that a call edits. -/
def Core.target (c : Core) (table : W64) : Frame := if table = 0#64 then c.cr3 else frameOf table

section Calls

variable {m : Machine} {t mirror : Frame} {table e : W64}

theorem target_eq {c : Core} (aligned : frameAddress (frameOf table) = table) (inactive : c.target table ≠ c.cr3) :
    table = frameAddress (c.target table) := by
  unfold Core.target at inactive ⊢
  split at inactive
  · exact absurd rfl inactive
  · rename_i other
    rw [if_neg other, aligned]

theorem activeLink_eq : vmmGetActiveRecurseLink = window recurseActive [] := getRecursiveAddress_zero _ _ _ _

theorem otherLink_eq : vmmGetOtherRecurseLink = window recurseOther [] := getRecursiveAddress_zero _ _ _ _

theorem active_iff (aligned : frameAddress (frameOf table) = table) :
    frameAddress m.core.cr3 = table ∨ table = 0#64 ↔ m.core.target table = m.core.cr3 := by
  unfold Core.target
  split
  · rename_i zero
    simp [zero]
  · rename_i other
    simp only [other, or_false]
    constructor
    · rintro rfl
      rw [frameOf_frameAddress]
    · intro same
      rw [← same, aligned]

theorem Ready.gate_active (ready : Ready m.core m.core.cr3 mirror) :
    Gate m.core recurseActive m.core.cr3 :=
  ⟨.inl rfl, ready.active, ready.active⟩

theorem setOther_links {c : Core} {i : Index} {h : Frame} (links : Links c.mem c.cr3 i h)
    (other : i ≠ recurseOther) : Links (c.setOther e).mem c.cr3 i h :=
  links.congr (write_of_ne fun both => other both.2)

theorem Backed.setOther {c : Core} (backed : Backed c mirror) : Backed (c.setOther e) mirror where
  initialized := backed.initialized
  links := setOther_links backed.links (by decide)
  mirrored f member := (backed.mirrored f member).of_row <| funext fun _ =>
    write_of_ne fun both => backed.below both.1
  apart := backed.apart
  below := backed.below

theorem Ready.gate_other {c : Core} (ready : Ready c t mirror) (aligned : table = frameAddress t)
    (prop : PageProperties) : Gate (c.setOther (pageCreate table prop)) recurseOther t where
  slot := .inr rfl
  active := setOther_links ready.active (by decide)
  target := by
    apply links_pageCreate prop
    rw [← aligned]
    exact write_self

theorem throughGate_active : throughGate (pageNumber (window recurseActive [])) = false := by
  rw [throughGate, window, indices_tableAddress]
  decide

theorem reaches_activeLink {c : Core} (active : Links c.mem c.cr3 recurseActive c.cr3) :
    Reaches c (window recurseActive []) c.cr3 :=
  reaches_links (by decide) active active active active

theorem store_otherSlot (active : Links m.core.mem m.core.cr3 recurseActive m.core.cr3) (e : W64) :
    Yields m (store otherSlot e) fun _ m' => m'.core = m.core.setOther e ∧ Silent m m' := by
  have stored := store_entry (reaches_activeLink active) recurseOther e
  rw [← activeLink_eq] at stored
  refine .of_eq stored ⟨rfl, ?_⟩
  rw [activeLink_eq]
  exact silent_used m throughGate_active m.core.cr3 _

theorem vmmReloadTlb_yields (addr : W64) : Yields m (vmmReloadTlb addr) fun _ m' =>
    m'.core = m.core ∧ Silent m m' ∧ ∀ h, (pageNumber addr, h) ∉ m'.tlb := by
  refine .of_eq rfl ⟨rfl, .of_eq rfl fun q h member => ?_, fun h member => ?_⟩
  · exact (List.mem_filter.mp member).1
  · simp at member

theorem CoherentBelow.coherent {m1 : Machine} {path : List Index} (below : CoherentBelow m t path)
    (apart : ¬ IsTable m.core.mem t m.core.cr3) (short : path.length ≤ 3) (silent : Silent m m1)
    (core : m1.core = m.core.setOther e) (gone : ∀ h, (pageNumber (window recurseOther []), h) ∉ m1.tlb) :
    Coherent m1 t path := by
  intro xs g h inside reached member
  rw [core, follow_setOther apart] at reached
  by_cases root : xs = []
  · subst root
    exact absurd member (gone h)
  · exact below xs g h root inside reached
      (silent.tlb _ h (throughGate_window (inside.length_le.trans short)) member)

theorem Coherent.opened {m1 : Machine} {path : List Index} (coherent : Coherent m t path)
    (apart : ¬ IsTable m.core.mem t m.core.cr3) (short : path.length ≤ 3) (silent : Silent m m1)
    (core : m1.core = m.core.setOther e) : Coherent m1 t path := by
  intro xs g h inside reached member
  rw [core, follow_setOther apart] at reached
  exact coherent xs g h inside reached
    (silent.tlb _ h (throughGate_window (inside.length_le.trans short)) member)

theorem other_simulates {α β γ : Type} {impl : VmmM α} {op : CoreM β} {rest : α → VmmM γ} {addr : W64}
    (post : Machine → Machine → Prop) (active : Links m.core.mem m.core.cr3 recurseActive m.core.cr3)
    (swap : ∀ e, op (m.core.setOther e) = (op m.core).map fun done => (done.1, done.2.setOther e))
    (simulates : ∀ m1, m1.core = m.core.setOther e →
      Simulates Machine.core m1 impl op fun _ _ m2 => post m1 m2)
    (kept : ∀ b c, op (m.core.setOther e) = some (b, c) →
      c.cr3 = m.core.cr3 ∧ Links c.mem m.core.cr3 recurseActive m.core.cr3)
    (done : ∀ a m2, Yields m2 (rest a) fun _ m3 => m3.core = m2.core ∧ Silent m2 m3) :
    Simulates Machine.core m
      (do store otherSlot e; vmmReloadTlb addr; let a ← impl; store otherSlot 0#64; rest a)
      (do modify (·.setOther 0#64); op)
      fun _ _ m' => ∃ m1 m2, Silent m m1 ∧ (∀ h, (pageNumber addr, h) ∉ m1.tlb) ∧
        m1.core = m.core.setOther e ∧ post m1 m2 ∧ Silent m2 m' := by
  obtain ⟨⟨⟩, n, opened, core0, silent0⟩ := store_otherSlot active e
  obtain ⟨⟨⟩, m1, reloaded, core1, silent1, gone⟩ := vmmReloadTlb_yields (m := n) addr
  have start : m1.core = m.core.setOther e := by rw [core1, core0]
  have implemented := simulates m1 start
  unfold Simulates
  have begun : (do modify (·.setOther 0#64); op : CoreM β) m.core = op (m.core.setOther 0#64) := rfl
  have image := swap e
  rw [← start] at image
  rw [begun, swap 0#64]
  cases taken : op m.core with
  | none =>
    have ended : impl m1 = none := by
      unfold Simulates at implemented
      rw [image, taken] at implemented
      exact implemented
    simp only [Option.map_none, Bind.bind, StateT.bind, opened, reloaded, ended, Option.bind]
  | some result =>
    obtain ⟨b, c⟩ := result
    rw [taken, Option.map_some] at image
    refine .after opened (.after reloaded ((implemented.yields image).bind ?_))
    rintro a m2 ⟨core2, holds⟩
    have still : Links m2.core.mem m2.core.cr3 recurseActive m2.core.cr3 := by
      obtain ⟨same, links⟩ := kept b _ (by rw [← start, image])
      rw [core2, same]
      exact links
    refine (store_otherSlot still 0#64).bind ?_
    rintro ⟨⟩ m3 ⟨core3, silent3⟩
    refine (done a m3).mono ?_
    rintro k m4 ⟨core4, silent4⟩
    refine ⟨?_, m1, m2, silent0.trans silent1, gone, start, holds, silent3.trans silent4⟩
    rw [core4, core3, core2, setOther_setOther]

end Calls

end Neutrino.Virtual
