import Neutrino.Virtual.Isolation
import Neutrino.Virtual.Series

namespace Neutrino.Virtual

open Library

-- The rights that the processor grants on a page.

def isUser (e : W64) : Bool := (e &&& userspaceBitOffset) != 0#64

structure Rights where
  user : Bool
  writable : Bool
  deriving DecidableEq

/-- An access is allowed only if the entries of all levels allow it. -/
def effective (entries : List W64) : Rights := ⟨entries.all isUser, entries.all isWritable⟩

def rightsOn (mem : Mem) (root : Frame) (v : W64) : Option Rights :=
  (walk mem root (pageNumber v)).map fun found => effective found.entries

/-- The entries that are present on a path, as far as it goes. -/
def existing (mem : Mem) : Frame → List Index → List W64
  | _, [] => []
  | g, i :: rest => if isPresent (mem g i) then mem g i :: existing mem (frameOf (mem g i)) rest else []

section Bits

variable (addr : W64) (prop : PageProperties)

theorem isUser_eq (e : W64) : isUser e = e.getLsbD 2 := by
  have bit : userspaceBitOffset = BitVec.twoPow 64 2 := by decide
  rw [isUser, bit, BitVec.and_twoPow]
  cases e.getLsbD 2 <;> rfl

theorem isWritable_eq (e : W64) : isWritable e = e.getLsbD 1 := by
  have bit : writableBitOffset = BitVec.twoPow 64 1 := by decide
  rw [isWritable, bit, BitVec.and_twoPow]
  cases e.getLsbD 1 <;> rfl

theorem isUser_pageCreate : isUser (pageCreate addr prop) = prop.user := by
  rw [isUser_eq]
  obtain ⟨writable, user, cacheDisable⟩ := prop
  cases writable <;> cases user <;> cases cacheDisable <;>
    simp [pageCreate, pageFlags, pageSetBit, pageClearBit, presentBitOffset, noExecuteBitOffset, writableBitOffset,
      userspaceBitOffset, cacheDisableBitOffset, addressMask]

theorem isWritable_pageCreate : isWritable (pageCreate addr prop) = prop.writable := by
  rw [isWritable_eq]
  obtain ⟨writable, user, cacheDisable⟩ := prop
  cases writable <;> cases user <;> cases cacheDisable <;>
    simp [pageCreate, pageFlags, pageSetBit, pageClearBit, presentBitOffset, noExecuteBitOffset, writableBitOffset,
      userspaceBitOffset, cacheDisableBitOffset, addressMask]

end Bits

/-- A property of the entries of a space that refer to tables. -/
def Upper (good : Frame → W64 → Prop) (mem : Mem) (t : Frame) : Prop :=
  ∀ xs g i h, follow branches mem 3 t xs = some g → xs.length ≤ 2 →
    (xs = [] → i ≠ recurseActive ∧ i ≠ recurseOther) → Links mem g i h → good h (mem g i)

/-- Pages can be written through them, as through all that the code makes. -/
def UpperWritable : Mem → Frame → Prop := Upper fun _ e => isWritable e = true

section Paths

variable {mem : Mem} {t g pt f n m : Frame} {c c' : Core} {i : Index} {level : Nat} {xs ys : List Index}
  {prop : PageProperties} {v e : W64}

theorem lookup_existing (path : follow branches mem level n xs = some m) (deep : level + 1 = xs.length + ys.length) :
    lookup branches mem n (xs ++ ys) =
      (lookup branches mem m ys).map fun found => (existing mem n xs ++ found.1, found.2) := by
  induction xs generalizing level n with
  | nil =>
    cases path
    simp [existing]
  | cons i xs ih =>
    obtain ⟨next, here, rest⟩ := follow_cons_some path
    obtain ⟨links, low, -, -⟩ := branches_table here
    rw [List.length_cons] at deep
    have size : (xs ++ ys).length = level := by
      rw [List.length_append]
      omega
    rw [List.cons_append, lookup, size, here, existing, if_pos links.present, links.frame]
    simp only [ih rest (by omega), Option.map_map]
    rfl

theorem walk_existing (inside : canonical (pageNumber v) = true) (outside : getPl4Index v ≠ recurseActive)
    (place : follow branches mem 3 t (directories v) = some g) (present : isPresent (mem g (getTabIndex v)) = true) :
    walk mem t (pageNumber v) = some ⟨existing mem t (directories v) ++ [mem g (getTabIndex v)],
      frameOf (mem g (getTabIndex v))⟩ := by
  have last : lookup branches mem g [getTabIndex v] = some ([mem g (getTabIndex v)], []) := by
    simp [lookup, branches, hardware, present]
  have found := @lookup_existing mem t g 3 (directories v) [getTabIndex v] place rfl
  rw [last, ← directories_append, lookup_slot (by rw [slotOf_pageNumber]; exact outside)] at found
  rw [walk, if_pos inside, found]
  simp [pageFrame]

theorem existing_leaf (tree : Tree mem t) (here : follow branches mem 3 t xs = some g)
    (place : follow branches mem 3 t (xs ++ ys) = some pt) :
    existing (mem.write pt i e) g ys = existing mem g ys := by
  induction ys generalizing xs g with
  | nil => rfl
  | cons j ys ih =>
    have other : g ≠ pt := by
      rintro rfl
      have same := congrArg List.length (tree _ _ _ here place)
      simp at same
    have row : mem.write pt i e g j = mem g j := write_of_ne fun both => other both.1
    have split : xs ++ j :: ys = (xs ++ [j]) ++ ys := by simp
    have path := place
    rw [follow_append here] at path
    obtain ⟨next, linked, -⟩ := follow_cons_some path
    obtain ⟨links, -⟩ := branches_table linked
    rw [existing, existing, row, links.frame, ih (follow_snoc here linked) (by rw [← split]; exact place)]

theorem descend_existing (target : Space c t) (way : Way c.mem t xs g ys) (taken : descend prop g ys c = some (f, c')) :
    ∃ created, existing c'.mem g ys = existing c.mem g ys ++ created ∧
      ∀ e ∈ created, ∃ h, e = pageCreate (frameAddress h) prop := by
  induction ys generalizing xs g c with
  | nil => exact ⟨[], rfl, nofun⟩
  | cons i ys ih =>
    obtain ⟨h, c1, first, rest⟩ := bind_some taken
    obtain ⟨grows, links, next⟩ := way.ensure target first
    have space := grows.space target target
    obtain ⟨created, more, fresh⟩ := ih space next rest
    obtain ⟨after, -⟩ := next.descend space rest
    have used : g ∉ c1.supply := fun member => space.fresh g member ⟨xs, grows.follow_eq target target way.place⟩
    have kept : c'.mem g i = c1.mem g i := after.present used links.present
    rcases ensure_cases first with ⟨present, rfl, rfl⟩ | ⟨absent, supply, taken, rfl⟩
    · refine ⟨created, ?_, fresh⟩
      rw [existing, existing, kept, if_pos present, if_pos present, more, List.cons_append]
    · have entry : (c.link g i h prop supply).mem g i = pageCreate (frameAddress h) prop :=
        link_self (target.apart way.place taken)
      have blank : existing (c.link g i h prop supply).mem h ys = [] := by
        cases ys with
        | nil => rfl
        | cons j ys =>
          have zero : (c.link g i h prop supply).mem h j = 0#64 := link_blank
          rw [existing, zero]
          rfl
      refine ⟨pageCreate (frameAddress h) prop :: created, ?_, ?_⟩
      · rw [existing, existing, kept, entry, if_pos (isPresent_pageCreate _ _), absent, frameOf_pageCreate,
          frameOf_frameAddress, more, blank]
        rfl
      · exact List.forall_mem_cons.mpr ⟨⟨h, rfl⟩, fresh⟩

theorem Way.existing {mem' : Mem} (way : Way mem t xs g ys) (same : ∀ g, IsTable mem t g → mem' g = mem g) :
    existing mem' g ys = existing mem g ys := by
  induction ys generalizing xs g with
  | nil => rfl
  | cons i ys ih =>
    rw [Virtual.existing, Virtual.existing, same g ⟨xs, way.place⟩]
    split
    · next present => rw [ih (way.step present).2]
    · rfl

theorem existing_writable (upper : UpperWritable mem t) (way : Way mem t xs g ys)
    (other : ∀ i rest, xs ++ ys = i :: rest → i ≠ recurseOther) : ∀ e ∈ existing mem g ys, isWritable e = true := by
  induction ys generalizing xs g with
  | nil => exact nofun
  | cons i ys ih =>
    rw [existing]
    split
    · next present =>
      obtain ⟨links, next⟩ := way.step present
      have top : xs = [] → i ≠ recurseActive ∧ i ≠ recurseOther := by
        rintro rfl
        exact ⟨way.here rfl, other i ys rfl⟩
      exact List.forall_mem_cons.mpr ⟨upper xs g i _ way.place way.high top links, ih next (by simpa using other)⟩
    · exact nofun

end Paths

section Upper

variable {mem : Mem} {t g pt f : Frame} {c c' : Core} {i : Index} {xs ys : List Index} {prop : PageProperties}
  {v e physAddr : W64} {good : Frame → W64 → Prop}

theorem ensure_upper (target : Space c t) (place : follow branches c.mem 3 t xs = some g)
    (made : ∀ f, good f (pageCreate (frameAddress f) prop)) (upper : Upper good c.mem t)
    (taken : ensure prop g i c = some (f, c')) : Upper good c'.mem t := by
  rcases ensure_cases taken with ⟨-, -, rfl⟩ | ⟨absent, rest, supply, rfl⟩
  · exact upper
  have apart := target.apart place supply
  have unused : ∀ zs, follow branches c.mem 3 t zs ≠ some f :=
    fun zs path => target.fresh f (first_mem supply) ⟨zs, path⟩
  intro zs h j k path high top links
  replace links : Links (c.mem.link g i f prop) h j k := links
  show good k (c.mem.link g i f prop h j)
  rcases (grown_link absent apart).follow_cases unused path with old | ⟨rfl, -⟩
  · have fresh : h ≠ f := by
      rintro rfl
      exact unused zs old
    by_cases here : h = g ∧ j = i
    · obtain ⟨rfl, rfl⟩ := here
      have same : k = f := by rw [← links.frame, (links_link apart).frame]
      rw [link_self apart, same]
      exact made f
    · have same := @link_of_ne c.mem f g h i j prop fresh here
      rw [same]
      exact upper zs h j k old high top (links.congr same.symm)
  · have present := links.present
    rw [link_blank, isPresent_zero] at present
    cases present

theorem descend_upper (target : Space c t) (way : Way c.mem t xs g ys)
    (made : ∀ f, good f (pageCreate (frameAddress f) prop)) (upper : Upper good c.mem t)
    (taken : descend prop g ys c = some (f, c')) : Upper good c'.mem t := by
  induction ys generalizing xs g c with
  | nil =>
    cases taken
    exact upper
  | cons i ys ih =>
    obtain ⟨h, c1, first, rest⟩ := bind_some taken
    obtain ⟨grows, -, next⟩ := way.ensure target first
    exact ih (grows.space target target) next (ensure_upper target way.place made upper first) rest

theorem leaf_upper (tree : Tree mem t) (place : follow branches mem 3 t ys = some pt) (last : ys.length = 3)
    (upper : Upper good mem t) : Upper good (mem.write pt i e) t := by
  intro xs g j h path high top links
  have old := (follow_leaf tree.aligned place last).mp path
  have other : g ≠ pt := by
    rintro rfl
    have same := congrArg List.length (tree _ _ _ old place)
    omega
  have row : mem.write pt i e g j = mem g j := write_of_ne fun both => other both.1
  rw [row]
  exact upper xs g j h old high top (links.congr row.symm)

theorem shut_upper (apart : t ≠ c.cr3 → ¬ IsTable c.mem t c.cr3) (upper : Upper good c.mem t) :
    Upper good (c.shut t).mem t := by
  unfold Core.shut
  split
  · exact upper
  · next inactive =>
    intro xs g j h path high top links
    have old := (follow_setOther (apart inactive)).mp path
    have row := congrFun (setOther_row (e := 0#64) (apart inactive) ⟨xs, old⟩) j
    rw [row]
    exact upper xs g j h old high top (links.congr row.symm)

theorem mapPage_upper (edit : Editable c t v) (made : ∀ f, good f (pageCreate (frameAddress f) (superProperties prop)))
    (upper : Upper good c.mem t) (taken : mapPage t physAddr v prop c = some ((), c')) : Upper good c'.mem t := by
  obtain ⟨pt, c1, first, rfl⟩ := mapPage_cases taken
  obtain ⟨grows, place⟩ := edit.descend first
  exact leaf_upper (grows.space edit.space edit.space).tree place rfl
    (descend_upper edit.space edit.start made upper first)

theorem all_of_last {p : W64 → Bool} {created : List W64} {answer : Bool} (olds : List W64)
    (same : ∀ e ∈ created, answer = true → p e = true) (last : p e = answer) :
    (olds ++ created ++ [e]).all p = (olds.all p && answer) := by
  rw [List.all_append, List.all_append, List.all_cons, List.all_nil, Bool.and_true, last]
  cases answer with
  | false => simp
  | true =>
    have all : created.all p = true := List.all_eq_true.mpr fun e member => same e member rfl
    rw [all, Bool.and_true, Bool.and_true]

theorem existing_shut (edit : Editable c t v) (apart : t ≠ c.cr3 → ¬ IsTable c.mem t c.cr3) :
    existing (c.shut t).mem t (directories v) = existing c.mem t (directories v) :=
  edit.start.existing fun _ => shut_row apart

theorem mapPage_rights (edit : Editable c t v) (inside : canonical (pageNumber v) = true)
    (other : getPl4Index v ≠ recurseOther) (upper : UpperWritable c.mem t)
    (taken : mapPage t physAddr v prop c = some ((), c')) :
    rightsOn c'.mem t v = some ⟨(existing c.mem t (directories v)).all isUser && prop.user, prop.writable⟩ ∧
      UpperWritable c'.mem t := by
  obtain ⟨pt, c1, first, rfl⟩ := mapPage_cases taken
  obtain ⟨grows, place⟩ := edit.descend first
  have top : ∀ i rest, [] ++ directories v = i :: rest → i ≠ recurseOther := by
    intro i rest split
    rw [← (List.cons.inj split).1]
    exact other
  have space := grows.space edit.space edit.space
  obtain ⟨created, entries, made⟩ := descend_existing edit.space edit.start first
  have still := (follow_leaf (i := getTabIndex v) (e := pageCreate physAddr prop) space.tree.aligned place rfl).mpr place
  have entry : c1.mem.write pt (getTabIndex v) (pageCreate physAddr prop) pt (getTabIndex v) =
      pageCreate physAddr prop := write_self
  have found := walk_existing inside edit.outside still (by rw [entry, isPresent_pageCreate])
  have kept : existing (c1.mem.write pt (getTabIndex v) (pageCreate physAddr prop)) t (directories v) = _ :=
    @existing_leaf c1.mem t t pt (getTabIndex v) [] (directories v) _ space.tree rfl place
  rw [kept, entry, entries] at found
  have user : ∀ e ∈ created, prop.user = true → isUser e = true := by
    intro e member asked
    obtain ⟨h, rfl⟩ := made e member
    rw [isUser_pageCreate]
    exact asked
  have writable : ∀ e ∈ created, prop.writable = true → isWritable e = true := by
    intro e member _
    obtain ⟨h, rfl⟩ := made e member
    exact isWritable_pageCreate _ _
  have before : (existing c.mem t (directories v)).all isWritable = true :=
    List.all_eq_true.mpr (existing_writable upper edit.start top)
  constructor
  · show (walk (c1.mem.write pt (getTabIndex v) (pageCreate physAddr prop)) t (pageNumber v)).map _ = _
    rw [found, Option.map_some, effective, all_of_last _ user (isUser_pageCreate _ _),
      all_of_last _ writable (isWritable_pageCreate _ _), before, Bool.true_and]
  · exact mapPage_upper edit (fun _ => isWritable_pageCreate _ _) upper taken

end Upper

structure MapCall where
  physAddr : W64
  virtAddr : W64
  prop : PageProperties

/-- The address is outside the recursive slots and huge pages. -/
structure MapCall.Allowed (call : MapCall) (c : Core) (t : Frame) : Prop where
  inside : canonical (pageNumber call.virtAddr) = true
  active : getPl4Index call.virtAddr ≠ recurseActive
  other : getPl4Index call.virtAddr ≠ recurseOther
  plain : plain c.mem t (directories call.virtAddr) = true

def MapStep (table : W64) (t : Frame) (m : Machine) (call : MapCall) (m' : Machine) : Prop :=
  call.Allowed m.core t ∧ vmmMapPage table call.physAddr call.virtAddr call.prop m = some ((), m')

section Runs

variable {m m' : Machine} {roots ram : Set Frame} {mirror t : Frame} {table : W64} {call : MapCall}

theorem MapCall.Allowed.editable (allowed : call.Allowed m.core t) (family : Family m.core roots ram mirror)
    (member : t ∈ roots) : Editable m.core t call.virtAddr :=
  family.editable member allowed.active allowed.plain

theorem mapStep_rights (family : Family m.core roots ram mirror) (names : Names m.core roots table t)
    (upper : UpperWritable m.core.mem t) (step : MapStep table t m call m') :
    rightsOn m'.core.mem t call.virtAddr = some ⟨(existing m.core.mem t (directories call.virtAddr)).all isUser &&
        call.prop.user, call.prop.writable⟩ ∧
      Family m'.core roots ram mirror ∧ Names m'.core roots table t ∧ UpperWritable m'.core.mem t := by
  obtain ⟨allowed, done⟩ := step
  obtain ⟨aligned, rfl, member⟩ := names
  have ready := family.ready member
  have edit := allowed.editable family member
  have there := edit.shut ready.apart
  obtain ⟨⟨⟩, taken, -⟩ := (vmmMapPage_simulates call.physAddr call.prop aligned ready edit).source done
  have edits := (shut_edits m.core (m.core.target table)).trans (mapPage_edits there taken)
  have ⟨rights, kept⟩ := mapPage_rights there allowed.inside allowed.other (shut_upper ready.apart upper) taken
  rw [existing_shut edit ready.apart] at rights
  exact ⟨rights, family.edits member edits, Names.edits ⟨aligned, rfl, member⟩ edits, kept⟩

/-- The rights of a mapping are those requested exactly if a user page comes below entries that are
    all the user's already; no call ever changes the rights of an entry above. -/
theorem rights_requested_iff (family : Family m.core roots ram mirror) (names : Names m.core roots table t)
    (upper : UpperWritable m.core.mem t) {calls : List MapCall} (run : Run (MapStep table t) m calls m')
    (allowed : call.Allowed m'.core t) (enough : 3 ≤ m'.core.supply.length) :
    Yields m' (vmmMapPage table call.physAddr call.virtAddr call.prop) fun _ m'' =>
      (rightsOn m''.core.mem t call.virtAddr = some ⟨call.prop.user, call.prop.writable⟩ ↔
        (call.prop.user = true → ∀ e ∈ existing m'.core.mem t (directories call.virtAddr), isUser e = true)) := by
  have kept : ∀ m call m', Family m.core roots ram mirror ∧ Names m.core roots table t ∧ UpperWritable m.core.mem t →
      MapStep table t m call m' →
      Family m'.core roots ram mirror ∧ Names m'.core roots table t ∧ UpperWritable m'.core.mem t :=
    fun m call m' inv step => (mapStep_rights inv.1 inv.2.1 inv.2.2 step).2
  have ⟨family', names', upper'⟩ := run.invariant kept ⟨family, names, upper⟩
  have room : Room m'.core t call.virtAddr := ⟨allowed.inside, allowed.active, allowed.plain⟩
  obtain ⟨⟨⟩, m'', done, -⟩ := family'.vmmMapPage_yields names' room call.physAddr call.prop enough
  refine .of_eq done ?_
  rw [(mapStep_rights family' names' upper' ⟨allowed, done⟩).1, Option.some_inj, Rights.mk.injEq, ← List.all_eq_true]
  cases call.prop.user <;> simp

end Runs

section Pair

def pairMachine : Machine := ⟨pairCore [5#40, 6#40, 7#40, 8#40, 9#40, 10#40], [], []⟩

theorem pairMachine_family : Family pairMachine.core pairRoots lowFrames 2#40 := pair_family (by decide) (by simp)

theorem pairMachine_names : Names pairMachine.core pairRoots 0x3000#64 3#40 := ⟨by decide, by decide, .inr (.inl rfl)⟩

theorem pair_upper : UpperWritable pairMem 3#40 := by
  intro xs g i h path high top links
  obtain ⟨rfl, rfl⟩ := pair_lone (.inl rfl) path
  have slots : ∀ i, isPresent (pairMem 3#40 i) = true → i = recurseActive := by decide +kernel
  exact absurd (slots i links.present) (top rfl).1

def kernelPage : MapCall := ⟨0x9000#64, 0x400000#64, pageKernelWrite⟩
def userPage : MapCall := ⟨0xa000#64, 0x401000#64, ⟨true, true, false⟩⟩
def farPage : MapCall := ⟨0xb000#64, 0x8000000000#64, ⟨true, true, false⟩⟩

theorem kernelPage_facts :
    (mapPage 3#40 kernelPage.physAddr kernelPage.virtAddr kernelPage.prop (pairMachine.core.shut 3#40)).map (fun done =>
      (plain done.2.mem 3#40 (directories userPage.virtAddr),
        (existing done.2.mem 3#40 (directories userPage.virtAddr)).all isUser,
        plain done.2.mem 3#40 (directories farPage.virtAddr), existing done.2.mem 3#40 (directories farPage.virtAddr),
        decide (3 ≤ done.2.supply.length))) = some (true, false, true, [], true) := by
  decide +kernel

/-- A page of the kernel's is mapped first. -/
theorem kernelPage_taken : ∃ m', MapStep 0x3000#64 3#40 pairMachine kernelPage m' ∧
    userPage.Allowed m'.core 3#40 ∧ (existing m'.core.mem 3#40 (directories userPage.virtAddr)).all isUser = false ∧
    farPage.Allowed m'.core 3#40 ∧ existing m'.core.mem 3#40 (directories farPage.virtAddr) = [] ∧
    3 ≤ m'.core.supply.length := by
  have kernel : kernelPage.Allowed pairMachine.core 3#40 := ⟨by decide, by decide, by decide, by decide⟩
  have member : (3#40 : Frame) ∈ pairRoots := .inr (.inl rfl)
  obtain ⟨⟨⟨⟩, c⟩, taken, facts⟩ := Option.map_eq_some_iff.mp kernelPage_facts
  have aligned : frameAddress (frameOf 0x3000#64) = 0x3000#64 := by decide
  have table : pairMachine.core.target 0x3000#64 = 3#40 := by decide
  have ready := pairMachine_family.ready member
  have simulates := vmmMapPage_simulates (m := pairMachine) kernelPage.physAddr kernelPage.prop aligned
    (by rw [table]; exact ready) (by rw [table]; exact kernel.editable pairMachine_family member)
  rw [table] at simulates
  obtain ⟨⟨⟩, m', done, core, -⟩ := simulates.yields taken
  simp only [Prod.mk.injEq, decide_eq_true_eq] at facts
  obtain ⟨path, users, farPath, far, enough⟩ := facts
  refine ⟨m', ⟨kernel, done⟩, ⟨by decide, by decide, by decide, ?_⟩, ?_, ⟨by decide, by decide, by decide, ?_⟩, ?_, ?_⟩ <;>
    rw [core] <;> assumption

theorem rights_requested_second : ∃ m', Run (MapStep 0x3000#64 3#40) pairMachine [kernelPage] m' ∧
    Yields m' (vmmMapPage 0x3000#64 farPage.physAddr farPage.virtAddr farPage.prop) fun _ m'' =>
      rightsOn m''.core.mem 3#40 farPage.virtAddr = some ⟨true, true⟩ := by
  obtain ⟨m', step, -, -, allowed, none, enough⟩ := kernelPage_taken
  have run : Run (MapStep 0x3000#64 3#40) pairMachine [kernelPage] m' := .cons step (.nil _)
  refine ⟨m', run, ?_⟩
  refine (rights_requested_iff pairMachine_family pairMachine_names pair_upper run allowed enough).mono ?_
  intro _ m'' rights
  refine rights.mpr fun _ e member => ?_
  rw [none] at member
  cases member

/-- A user page whose tables were made for a page of the kernel's cannot be used by the user. -/
theorem user_page_below_kernel_table : ∃ m', Run (MapStep 0x3000#64 3#40) pairMachine [kernelPage] m' ∧
    userPage.Allowed m'.core 3#40 ∧
    Yields m' (vmmMapPage 0x3000#64 userPage.physAddr userPage.virtAddr userPage.prop) fun _ m'' =>
      rightsOn m''.core.mem 3#40 userPage.virtAddr = some ⟨false, true⟩ := by
  obtain ⟨m', step, allowed, users, -, -, enough⟩ := kernelPage_taken
  obtain ⟨-, family, names, upper⟩ := mapStep_rights pairMachine_family pairMachine_names pair_upper step
  have room : Room m'.core 3#40 userPage.virtAddr := ⟨allowed.inside, allowed.active, allowed.plain⟩
  obtain ⟨⟨⟩, m'', mapped, -⟩ := family.vmmMapPage_yields names room userPage.physAddr userPage.prop enough
  refine ⟨m', .cons step (.nil _), allowed, .of_eq mapped ?_⟩
  rw [(mapStep_rights family names upper ⟨allowed, mapped⟩).1, users]
  rfl

end Pair

end Neutrino.Virtual
