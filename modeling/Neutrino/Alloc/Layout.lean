import Mathlib.Data.List.Pairwise
import Neutrino.Alloc.Arenas

namespace Neutrino.Alloc

open Library

variable {arenas arenas' before behind : List Arena} {a a' : Arena} {blocks : List Block} {b c : Block} {n m k : Nat}

theorem mem_middle {α : Type} {x y : α} {xs ys : List α} : x ∈ xs ++ y :: ys ↔ x = y ∨ x ∈ xs ++ ys := by
  simp only [List.mem_append, List.mem_cons]
  tauto

namespace Arena

/-- The address of the major or of one of its minors. -/
def Site (a : Arena) (n : Nat) : Prop := n = a.base ∨ ∃ b ∈ a.blocks, n = b.addr

namespace Good

variable (good : a.Good)
include good

theorem base_lt : a.base + 40 ≤ a.stop := good.ordered.le

theorem block (member : b ∈ a.blocks) :
    a.base + 40 ≤ b.addr ∧ b.addr + 72 + b.req ≤ b.stop ∧ b.stop ≤ a.stop := by
  have inside := good.ordered.within member
  have sized := good.sized b member
  unfold Block.stop at inside ⊢
  omega

theorem blocks_apart (member : b ∈ a.blocks) (member' : c ∈ a.blocks) (ne : b ≠ c) : b.Apart c := by
  have pairs : a.blocks.Pairwise Block.Apart := good.ordered.pairwise.imp fun before => .inl before
  exact pairs.forall member member' ne

theorem site (site : a.Site n) : a.base ≤ n ∧ n + 40 ≤ a.stop := by
  have room := good.base_lt
  rcases site with rfl | ⟨b, inside, rfl⟩
  · omega
  · have block := good.block inside
    omega

theorem site_block (site : a.Site n) (inside : b ∈ a.blocks) : n + 40 ≤ b.addr ∨ n = b.addr ∨ b.stop ≤ n := by
  have block := good.block inside
  rcases site with rfl | ⟨c, inside', rfl⟩
  · omega
  · have block' := good.block inside'
    by_cases same : b = c
    · exact .inr (.inl (by rw [same]))
    · have apart := good.blocks_apart inside inside' same
      unfold Block.Apart at apart
      omega

theorem usage_le : a.usage ≤ a.bytes := by
  have extent := good.ordered.extent_le
  unfold Arena.usage
  unfold Arena.stop at extent
  omega

theorem size_small (member : b ∈ a.blocks) : b.size < 2 ^ 32 := by
  have block := good.block member
  have small := good.small
  unfold Block.stop Arena.stop at block
  omega

end Good

@[simp] theorem withBlocks_blocks : (a.withBlocks blocks).blocks = blocks := rfl

@[simp] theorem withBlocks_bytes : (a.withBlocks blocks).bytes = a.bytes := rfl

theorem withBlocks_usage {xs ys : List Block} :
    (a.withBlocks (xs ++ b :: ys)).usage = (a.withBlocks (xs ++ ys)).usage + (40 + b.size) := by
  simp only [usage, withBlocks_blocks, FirstFit.extent, List.map_append, List.map_cons, List.sum_append, List.sum_cons,
    Block.stop]
  omega

end Arena

def IsSite (arenas : List Arena) (n : Nat) : Prop := ∃ a ∈ arenas, a.Site n

def sites (arenas : List Arena) : Set W64 := {x | ∃ n, IsSite arenas n ∧ x = BitVec.ofNat 64 n}

theorem IsSite.major (member : a ∈ arenas) : IsSite arenas a.base := ⟨a, member, .inl rfl⟩

theorem IsSite.minor (member : a ∈ arenas) (inside : b ∈ a.blocks) : IsSite arenas b.addr :=
  ⟨a, member, .inr ⟨b, inside, rfl⟩⟩

theorem IsSite.mem (site : IsSite arenas n) : BitVec.ofNat 64 n ∈ sites arenas := ⟨n, site, rfl⟩

theorem IsSite.other (site : IsSite (before ++ behind) n) : IsSite (before ++ a :: behind) n := by
  obtain ⟨d, member, here⟩ := site
  exact ⟨d, mem_middle.mpr (.inr member), here⟩

namespace Laid

variable (laid : Laid arenas)
include laid

theorem arenas_apart (member : a ∈ arenas) (member' : a' ∈ arenas) (ne : a ≠ a') : a.Apart a' :=
  laid.apart.forall member member' ne

theorem site_bounds (site : IsSite arenas n) : 0 < n ∧ n + 40 ≤ 2 ^ 64 := by
  obtain ⟨a, member, here⟩ := site
  have range := (laid.each a member).site here
  have pos := (laid.each a member).pos
  have fits := (laid.each a member).fits
  omega

theorem site_block (member : a ∈ arenas) (inside : b ∈ a.blocks) (site : IsSite arenas n) :
    n + 40 ≤ b.addr ∨ n = b.addr ∨ b.stop ≤ n := by
  obtain ⟨a', member', here⟩ := site
  by_cases same : a = a'
  · subst same
    exact (laid.each a member).site_block here inside
  · have apart := laid.arenas_apart member member' same
    have block := (laid.each a member).block inside
    have range := (laid.each a' member').site here
    unfold Arena.Apart at apart
    omega

theorem sites_apart (site : IsSite arenas n) (site' : IsSite arenas m) (ne : n ≠ m) : n + 40 ≤ m ∨ m + 40 ≤ n := by
  obtain ⟨a, member, rfl | ⟨b, inside, rfl⟩⟩ := id site
  · obtain ⟨a', member', rfl | ⟨c, inside', rfl⟩⟩ := site'
    · have apart := laid.arenas_apart member member' fun same => ne (congrArg Arena.base same)
      have room := (laid.each a member).base_lt
      have room' := (laid.each a' member').base_lt
      unfold Arena.Apart at apart
      omega
    · have place := laid.site_block member' inside' site
      have block := (laid.each a' member').block inside'
      omega
  · have place := laid.site_block member inside site'
    have block := (laid.each a member).block inside
    omega

theorem blocks_apart (member : a ∈ arenas) (inside : b ∈ a.blocks) (member' : a' ∈ arenas) (inside' : c ∈ a'.blocks)
    (ne : b ≠ c) : b.Apart c := by
  by_cases same : a = a'
  · subst same
    exact (laid.each a member).blocks_apart inside inside' ne
  · have apart := laid.arenas_apart member member' same
    have block := (laid.each a member).block inside
    have block' := (laid.each a' member').block inside'
    unfold Arena.Apart at apart
    unfold Block.Apart
    omega

theorem headers_apart : ∀ x ∈ sites arenas, ∀ y ∈ sites arenas, x ≠ y → HeadersApart x y := by
  rintro _ ⟨n, site, rfl⟩ _ ⟨m, site', rfl⟩ ne x inside inside'
  have bounds := laid.site_bounds site
  have bounds' := laid.site_bounds site'
  have apart := laid.sites_apart site site' fun same => ne (congrArg _ same)
  rw [within_ofNat bounds.2] at inside
  rw [within_ofNat bounds'.2] at inside'
  omega

theorem not_header (member : a ∈ arenas) (inside : b ∈ a.blocks) (low : b.addr + 40 ≤ k) (high : k < b.stop) :
    ∀ y ∈ sites arenas, ¬ Within y 40 (BitVec.ofNat 64 k) := by
  rintro _ ⟨n, site, rfl⟩ within
  have fits := (laid.each a member).fits
  have block := (laid.each a member).block inside
  have place := laid.site_block member inside site
  rw [within_ofNat (laid.site_bounds site).2, ofNat_toNat (by omega)] at within
  omega

theorem site_ne (site : IsSite arenas n) (site' : IsSite arenas m) (ne : n ≠ m) :
    BitVec.ofNat 64 n ≠ BitVec.ofNat 64 m := by
  have bounds := laid.site_bounds site
  have bounds' := laid.site_bounds site'
  exact fun same => ne (ofNat_injective (by omega) (by omega) same)

theorem minor_ne (member : a ∈ arenas) (inside : b ∈ a.blocks) (member' : a' ∈ arenas) : b.min ≠ a'.maj := by
  have block := (laid.each a member).block inside
  apply laid.site_ne (.minor member inside) (.major member')
  by_cases same : a = a'
  · subst same
    omega
  · have apart := laid.arenas_apart member member' same
    have room := (laid.each a' member').base_lt
    unfold Arena.Apart at apart
    omega

omit laid in
theorem other_ne (laid : Laid (before ++ a :: behind)) (site : IsSite (before ++ behind) n) (own : a.Site m) :
    BitVec.ofNat 64 n ≠ BitVec.ofNat 64 m := by
  obtain ⟨e, member, here⟩ := site
  have apart := (List.pairwise_cons.mp ((List.pairwise_middle Arena.Apart.symm).mp laid.apart)).1 e member
  have good := laid.each e (mem_middle.mpr (.inr member))
  have range := good.site here
  have fits := good.fits
  have range' := (laid.each a List.mem_append_cons_self).site own
  have fits' := (laid.each a List.mem_append_cons_self).fits
  unfold Arena.Apart at apart
  intro same
  have numbers := ofNat_injective (by omega) (by omega) same
  omega

end Laid

section Memory

variable {mem mem' : ByteMemory} {root x : W64}

theorem fetch_byte (same : mem' x = mem x) : fetch 8 mem' x = fetch 8 mem x := by
  apply fetch_congr (by omega)
  intro y inside
  have zero : (y - x).toNat = 0 := Nat.lt_one_iff.mp inside
  have equal : y = x := by bv_omega
  rw [equal]
  exact same

theorem Block.Marked.congr (marked : b.Marked mem) (same : mem' b.mark = mem b.mark) : b.Marked mem' :=
  (fetch_byte same).trans marked

theorem Block.mark_bounds (b : Block) (sized : b.req + 32 ≤ b.size) :
    b.addr + 40 ≤ b.pointer - 16 ∧ b.pointer - 16 < b.stop ∧ b.pointer + b.req < b.stop := by
  have bounds := b.pointer_bounds
  unfold Block.stop
  omega

/-- The bytes that the allocator keeps its own data in. -/
def Bookkeeping (arenas : List Arena) (x : W64) : Prop :=
  (∃ y ∈ sites arenas, Within y 40 x) ∨ ∃ a ∈ arenas, ∃ b ∈ a.blocks, x = b.mark

theorem Bookkeeping.mono (more : ∀ d ∈ arenas, ∃ e ∈ arenas', e.base = d.base ∧ ∀ c ∈ d.blocks, c ∈ e.blocks)
    (booked : Bookkeeping arenas x) : Bookkeeping arenas' x := by
  rcases booked with ⟨y, ⟨n, ⟨d, member, own⟩, rfl⟩, within⟩ | ⟨d, member, c, inside, rfl⟩
  · obtain ⟨e, listed, base, wider⟩ := more d member
    refine .inl ⟨_, ⟨n, ⟨e, listed, ?_⟩, rfl⟩, within⟩
    rcases own with rfl | ⟨c, inside, rfl⟩
    · exact .inl base.symm
    · exact .inr ⟨c, wider c inside, rfl⟩
  · obtain ⟨e, listed, -, wider⟩ := more d member
    exact .inr ⟨e, listed, c, wider c inside, rfl⟩

theorem mem_minors {owner : Arena} (listed : x ∈ (blocks.map (Block.node owner)).map Prod.fst) :
    ∃ c ∈ blocks, x = c.min := by
  simp only [List.map_map, List.mem_map] at listed
  obtain ⟨c, member, rfl⟩ := listed
  exact ⟨c, member, rfl⟩

theorem mem_majors (listed : x ∈ (arenas.map Arena.node).map Prod.fst) : ∃ a ∈ arenas, x = a.maj := by
  simp only [List.map_map, List.mem_map] at listed
  obtain ⟨a, member, rfl⟩ := listed
  exact ⟨a, member, rfl⟩

theorem minors_congr {h h' : LinkStore W64 Counts} {owner : Arena} {p q r : W64}
    (segment : Segment h p q (blocks.map (Block.node owner)) r) (same : ∀ c ∈ blocks, h' c.min = h c.min) :
    Segment h' p q (blocks.map (Block.node owner)) r := by
  apply segment.congr
  intro x listed
  obtain ⟨c, member, rfl⟩ := mem_minors listed
  exact same c member

theorem majors_congr {h h' : LinkStore W64 Counts} {p q r : W64} (segment : Segment h p q (arenas.map Arena.node) r)
    (same : ∀ a ∈ arenas, h' a.maj = h a.maj) : Segment h' p q (arenas.map Arena.node) r := by
  apply segment.congr
  intro x listed
  obtain ⟨a, member, rfl⟩ := mem_majors listed
  exact same a member

theorem Holds.of_records (holds : Holds mem root arenas)
    (same : ∀ n, IsSite arenas n → records mem' (BitVec.ofNat 64 n) = records mem (BitVec.ofNat 64 n))
    (marks : ∀ a ∈ arenas, ∀ b ∈ a.blocks, mem' b.mark = mem b.mark) : Holds mem' root arenas := by
  constructor
  · exact majors_congr holds.majors fun a member => same _ (.major member)
  · intro a member
    exact minors_congr (holds.minors a member) fun b inside => same _ (.minor member inside)
  · intro a member b inside
    exact (holds.marks a member b inside).congr (marks a member b inside)

theorem Holds.congr (holds : Holds mem root arenas) (same : ∀ x, Bookkeeping arenas x → mem' x = mem x) :
    Holds mem' root arenas := by
  apply holds.of_records
  · intro n site
    exact records_congr fun y inside => same y (.inl ⟨_, site.mem, inside⟩)
  · intro a member b inside
    exact same _ (.inr ⟨a, member, b, inside, rfl⟩)

theorem Holds.replace (holds : Holds mem root (before ++ a :: behind))
    (foreign : ∀ n, IsSite (before ++ behind) n → records mem' (BitVec.ofNat 64 n) = records mem (BitVec.ofNat 64 n))
    (major : ∀ next prev, records mem a.maj = some ⟨a.node.2, next, prev⟩ →
      records mem' a.maj = some ⟨(a.withBlocks blocks).node.2, next, prev⟩)
    (minors : Segment (records mem') 0#64 (a.withBlocks blocks).first (blocks.map (Block.node a)) 0#64)
    (marks : ∀ c ∈ blocks, c.Marked mem') (others : ∀ d ∈ before ++ behind, ∀ c ∈ d.blocks, mem' c.mark = mem c.mark) :
    Holds mem' root (before ++ a.withBlocks blocks :: behind) := by
  constructor
  · have majors := holds.majors
    rw [List.map_append, List.map_cons] at majors ⊢
    refine majors.redata (fun next node => major _ _ node) (fun x listed => ?_) fun x listed => ?_
    · obtain ⟨d, member, rfl⟩ := mem_majors listed
      exact foreign _ (.major (List.mem_append_left _ member))
    · obtain ⟨d, member, rfl⟩ := mem_majors listed
      exact foreign _ (.major (List.mem_append_right _ member))
  · intro d member
    rcases mem_middle.mp member with rfl | other
    · exact minors
    · exact minors_congr (holds.minors d (mem_middle.mpr (.inr other))) fun c inside => foreign _ (.minor other inside)
  · intro d member c inside
    rcases mem_middle.mp member with rfl | other
    · exact marks c inside
    · exact (holds.marks d (mem_middle.mpr (.inr other)) c inside).congr (others d other c inside)

theorem Laid.payload_free (laid : Laid arenas) (member : a ∈ arenas) (inside : b ∈ a.blocks) (own : x ∈ b.payload) :
    ¬ Bookkeeping arenas x := by
  have fits := (laid.each a member).fits
  have block := (laid.each a member).block inside
  have bounds := b.pointer_bounds
  have mark := b.mark_bounds ((laid.each a member).sized b inside)
  have place : x = BitVec.ofNat 64 x.toNat := by rw [BitVec.ofNat_toNat, BitVec.setWidth_eq]
  have low := own.1
  have high := own.2
  rintro (⟨y, site, within⟩ | ⟨a', member', c, inside', same⟩)
  · rw [place] at within
    exact laid.not_header member inside (by omega) (by omega) y site within
  · have fits' := (laid.each a' member').fits
    have block' := (laid.each a' member').block inside'
    have mark' := c.mark_bounds ((laid.each a' member').sized c inside')
    have number : x.toNat = c.pointer - 16 := by rw [same, ofNat_toNat (by omega)]
    by_cases equal : b = c
    · subst equal
      omega
    · have apart := laid.blocks_apart member inside member' inside' equal
      unfold Block.Apart at apart
      omega

end Memory

end Neutrino.Alloc
