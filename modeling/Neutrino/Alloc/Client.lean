import Mathlib.Data.Multiset.AddSub
import Neutrino.Alloc.Free
import Neutrino.Library.Runs

namespace Neutrino.Alloc

open Library

/-- What a caller of the allocator has: a pointer, and the number of bytes it asked for. -/
structure Grant where
  pointer : W64
  bytes : Nat
deriving DecidableEq

def Grant.Owns (e : Grant) (x : W64) : Prop := e.pointer.toNat ≤ x.toNat ∧ x.toNat < e.pointer.toNat + e.bytes

instance (e : Grant) (x : W64) : Decidable (e.Owns x) := inferInstanceAs (Decidable (_ ∧ _))

/-- The allocator with what its callers have, and with what it has from the system: the first of each run
    of pages and their number. -/
structure Client where
  heap : Liballoc
  live : Multiset Grant
  held : Multiset (W64 × W32)

/-- The calls, with the answer of the system to a request for pages, and the stores of the callers. `fuel` bounds the
    iterations of each loop of `malloc` by itself, every time it is entered. -/
inductive Call
  | malloc (req : Nat) (answer : W64) (fuel : Nat)
  | free (e : Grant)
  | write (x : W64) (v : BitVec 8)

/-- The system has the pages for the request from `q` on. -/
def Available (held : Multiset (W64 × W32)) (req : Nat) (q : W64) : Prop :=
  q.toNat + pagesFor req * 4096 ≤ 2 ^ 64 ∧
    ∀ r ∈ held, q.toNat + pagesFor req * 4096 ≤ r.1.toNat ∨ r.1.toNat + r.2.toNat * 4096 ≤ q.toNat

def Liballoc.enter (s : Liballoc) (answer : W64) : Liballoc := { s with pages := [answer], asked := [], returned := [] }

/-- What a call that answers `p` adds to what the callers have. -/
def served (p : W64) (req : Nat) : Multiset Grant := if p = 0#64 then 0 else {⟨p, req⟩}

/-- The pages that the system has granted in a call. -/
def granted (answer : W64) (s : Liballoc) : Multiset (W64 × W32) :=
  if answer = 0#64 then 0 else (s.asked.map fun count => (answer, count) : List (W64 × W32))

namespace Client

/-- The allocator before the first call. -/
def initial (mem : ByteMemory) : Client := ⟨⟨mem, 0#64, 0#64, false, [], [], [], 0#64, 0#64⟩, 0, 0⟩

/-- Enough for either loop each time it is entered: the outer one looks at no major more than twice, the inner one at
    each block of one major. -/
def iterations (c : Client) : Nat := 2 * c.held.card + c.live.card + 4

/-- The rules for the callers and for the system: blocks are freed once, only bytes that were asked for are
    written, and pages are granted once. -/
def Allows (c : Client) : Call → Prop
  | .malloc req answer fuel =>
    req + 4208 ≤ 2 ^ 32 ∧ (answer ≠ 0#64 → Available c.held req answer) ∧ c.iterations ≤ fuel
  | .free e => e ∈ c.live
  | .write x _ => ∃ e ∈ c.live, e.Owns x

/-- The end of a call. -/
def settle (c : Client) (answer : W64) (s : Liballoc) (live : Multiset Grant) : Client :=
  ⟨s, live, granted answer s + c.held - (s.returned : Multiset (W64 × W32))⟩

inductive Step : Client → Call → Client → Prop
  | malloc {c : Client} {req fuel : Nat} {answer p : W64} {s : Liballoc} (allowed : c.Allows (.malloc req answer fuel))
      (done : Alloc.malloc fuel (BitVec.ofNat 32 req) (c.heap.enter answer) = some (p, s)) :
      Step c (.malloc req answer fuel) (c.settle answer s (served p req + c.live))
  | free {c : Client} {e : Grant} {s : Liballoc} (allowed : c.Allows (.free e))
      (done : Alloc.free e.pointer (c.heap.enter 0#64) = some ((), s)) :
      Step c (.free e) (c.settle 0#64 s (c.live.erase e))
  | write {c : Client} {x : W64} {v : BitVec 8} (allowed : c.Allows (.write x v)) :
      Step c (.write x v) { c with heap := { c.heap with mem := Function.update c.heap.mem x v } }

end Client

def Block.grant (b : Block) : Grant := ⟨b.ptr, b.req⟩

def Arena.grant (a : Arena) : W64 × W32 := (a.maj, BitVec.ofNat 32 a.pages)

def ledger (arenas : List Arena) : Multiset Grant := ((live arenas).map Block.grant : List Grant)

def holdings (arenas : List Arena) : Multiset (W64 × W32) := (arenas.map Arena.grant : List (W64 × W32))

/-- The callers have the blocks, and the allocator has the pages of its majors. -/
structure Client.Inv (c : Client) (arenas : List Arena) : Prop where
  heap : Alloc.Inv c.heap arenas
  live : c.live = ledger arenas
  held : c.held = holdings arenas

variable {arenas arenas' before behind : List Arena} {a a' : Arena} {xs ys : List Block} {b : Block} {s s1 s' : Liballoc}
  {req fuel : Nat} {p q : W64} {c c' : Client}

theorem Client.initial_inv (mem : ByteMemory) : (Client.initial mem).Inv [] := by
  refine ⟨⟨⟨⟨?_, .nil⟩, ?_⟩, ⟨rfl, ?_, ?_⟩, .inl rfl, rfl, rfl, rfl⟩, rfl, rfl⟩
  all_goals
    intro a member
    cases member

theorem Inv.enter (inv : Inv s arenas) (answer : W64) : Inv (s.enter answer) arenas :=
  ⟨inv.good, inv.holds, inv.bet, inv.unlocked, inv.allocated, inv.inuse⟩

theorem Arena.Good.grant_eq (good : a.Good) : a.grant.1.toNat = a.base ∧ a.grant.2.toNat * 4096 = a.bytes := by
  have fits := good.fits
  have base := good.base_lt
  have small := good.small
  unfold Arena.bytes at small ⊢
  simp only [Arena.grant]
  refine ⟨ofNat_toNat (by omega), ?_⟩
  rw [BitVec.toNat_ofNat, Nat.mod_eq_of_lt (by omega)]

section Books

theorem Good.live_bounds (good : Good arenas) (member : b ∈ live arenas) :
    ∃ a ∈ arenas, b ∈ a.blocks ∧ a.base + 96 ≤ b.pointer ∧ b.pointer + b.req < b.stop ∧ b.stop ≤ a.stop ∧ a.stop ≤ 2 ^ 64 := by
  obtain ⟨a, listed, inside⟩ := List.mem_flatMap.mp member
  have own := good.each a listed
  have block := own.block inside
  have bounds := b.pointer_bounds
  have mark := b.mark_bounds (own.sized b inside)
  exact ⟨a, listed, inside, by omega, mark.2.2, block.2.2, own.fits⟩

theorem Good.pointer_ne (good : Good arenas) (member : b ∈ live arenas) : b.ptr ≠ 0#64 := by
  obtain ⟨a, listed, inside, low, high, stop, fits⟩ := good.live_bounds member
  exact ofNat_ne_zero (by omega) (by omega)

theorem live_perm (split : a.blocks = xs ++ b :: ys) (split' : a'.blocks = xs ++ ys) :
    (live (before ++ a :: behind)).Perm (b :: live (before ++ a' :: behind)) := by
  simp only [live, List.flatMap_append, List.flatMap_cons, split, split']
  rw [List.append_assoc, List.cons_append, ← List.append_assoc, List.append_assoc xs, ← List.append_assoc _ xs]
  exact List.perm_middle

theorem Serves.live (serves : Serves req s arenas p s1 arenas') (good : Good arenas') :
    ∃ new : List Block, (live arenas').Perm (new ++ live arenas) ∧ (new.map Block.grant : Multiset Grant) = served p req := by
  have answered : ∀ b, (Alloc.live arenas').Perm ([b] ++ Alloc.live arenas) → b.req = req → ([b].map Block.grant : Multiset Grant) =
      served b.ptr req := by
    intro b perm sized
    rw [served, if_neg (good.pointer_ne (perm.mem_iff.mpr List.mem_cons_self)), ← sized]
    rfl
  cases serves with
  | @placed before behind a xs ys b room split sized =>
    have perm := @live_perm before behind (a.withBlocks (xs ++ b :: ys)) a xs ys b rfl split
    exact ⟨_, perm, answered b perm sized.1⟩
  | @grown _ q full head proper =>
    have perm : (Alloc.live (arenas ++ [(fresh q req).withBlocks [Block.make req (q.toNat + 40)]])).Perm
        ([Block.make req (q.toNat + 40)] ++ Alloc.live arenas) := by
      rw [Alloc.live, List.flatMap_append]
      exact List.perm_append_comm
    exact ⟨_, perm, answered _ perm rfl⟩
  | refused full head => exact ⟨[], .refl _, (if_pos rfl).symm⟩

theorem Malloced.books (malloced : Malloced req (s.enter q) arenas p s' arenas') :
    ledger arenas' = served p req + ledger arenas ∧ holdings arenas' = granted q s' + holdings arenas ∧ s'.returned = [] := by
  obtain ⟨s1, serves, pages, asked, returned⟩ := malloced.serves
  obtain ⟨new, perm, grants⟩ := serves.live malloced.inv.good
  have ledgers : ledger arenas' = served p req + ledger arenas := by
    rw [← grants, ledger, ledger, Multiset.coe_add, ← List.map_append]
    exact Multiset.coe_eq_coe.mpr (perm.map Block.grant)
  refine ⟨ledgers, ?_⟩
  cases serves with
  | placed room split sized =>
    have none : s'.asked = [] := asked
    refine ⟨?_, returned⟩
    rw [granted, none, List.map_nil, Multiset.coe_nil, ite_self, Multiset.zero_add]
    simp only [holdings, List.map_append, List.map_cons]
    rfl
  | @grown _ q' full head proper =>
    obtain rfl : q = q' := head
    have one : s'.asked = [BitVec.ofNat 32 (pagesFor req)] := asked
    have grant : ((fresh q req).withBlocks [Block.make req (q.toNat + 40)]).grant = (q, BitVec.ofNat 32 (pagesFor req)) :=
      Prod.ext (@fresh_place req q) rfl
    refine ⟨?_, returned⟩
    rw [granted, if_neg proper, one, holdings, List.map_append, List.map_singleton, grant]
    exact Multiset.coe_eq_coe.mpr List.perm_append_comm
  | refused full head =>
    have zero : q = 0#64 := head
    exact ⟨by rw [granted, if_pos zero, Multiset.zero_add], returned⟩

theorem Laid.live_nodup (laid : Laid arenas) : (live arenas).Nodup := by
  refine List.nodup_flatMap.mpr ⟨fun a member => ?_, ?_⟩
  · have good := laid.each a member
    refine good.ordered.pairwise.imp fun {b c} before => ?_
    rintro rfl
    unfold Block.stop at before
    omega
  · refine laid.apart.imp_of_mem fun {a a'} member member' apart => ?_
    intro b inside inside'
    have block := (laid.each a member).block inside
    have block' := (laid.each a' member').block inside'
    unfold Arena.Apart at apart
    omega

theorem Freed.books (freed : Freed b s arenas s' arenas') :
    ledger arenas = {b.grant} + ledger arenas' ∧
      ∃ given : List (W64 × W32), s'.returned = s.returned ++ given ∧ holdings arenas = given + holdings arenas' := by
  obtain ⟨s1, frees, pages, asked, returned⟩ := freed.frees
  cases frees with
  | kept split more =>
    refine ⟨Multiset.coe_eq_coe.mpr ((live_perm split rfl).map Block.grant), [], ?_, ?_⟩
    · rw [List.append_nil]
      exact returned
    · rw [Multiset.coe_nil, Multiset.zero_add]
      simp only [holdings, List.map_append, List.map_cons]
      rfl
  | @dropped before behind a only =>
    refine ⟨?_, [a.grant], returned, ?_⟩
    · have whole := Multiset.coe_eq_coe.mpr ((@live_perm before behind a (a.withBlocks []) [] [] b only rfl).map Block.grant)
      have rest : live (before ++ a.withBlocks [] :: behind) = live (before ++ behind) := by
        simp only [live, List.flatMap_append, List.flatMap_cons, Arena.withBlocks_blocks, List.nil_append]
      rw [rest] at whole
      exact whole
    · rw [holdings, List.map_append, List.map_cons, holdings, List.map_append]
      exact Multiset.coe_eq_coe.mpr List.perm_middle

end Books

namespace Client.Inv

variable {e : Grant} (inv : c.Inv arenas)
include inv

theorem supplied (small : req + 4208 ≤ 2 ^ 32) (available : q ≠ 0#64 → Available c.held req q) :
    Supplied arenas req (c.heap.enter q) := by
  rintro q' first proper
  obtain rfl : q = q' := first
  obtain ⟨fits, apart⟩ := available proper
  have bounds := pagesFor_bounds small
  have pos : 0 < q.toNat := Nat.pos_of_ne_zero fun zero => proper (BitVec.eq_of_toNat_eq zero)
  have laid := inv.heap.good.toLaid
  constructor
  · intro a member
    rcases List.mem_append.mp member with old | new
    · exact laid.each a old
    · cases List.mem_singleton.mp new
      refine ⟨pos, fits, bounds.2, ?_, fun b member => by cases member⟩
      simp only [FirstFit.Ordered, fresh, Arena.stop, Arena.bytes]
      omega
  · refine List.pairwise_append.mpr ⟨laid.apart, List.pairwise_singleton _ _, fun a member b new => ?_⟩
    cases List.mem_singleton.mp new
    have good := laid.each a member
    have granted : a.grant ∈ c.held := by
      rw [inv.held]
      exact List.mem_map_of_mem member
    obtain ⟨base, bytes⟩ := good.grant_eq
    have far := apart _ granted
    simp only [Arena.Apart, Arena.stop, fresh, Arena.bytes] at bytes ⊢
    omega

theorem block (member : e ∈ c.live) : ∃ b ∈ Alloc.live arenas, b.grant = e := by
  rw [inv.live] at member
  exact List.mem_map.mp member

theorem iterations_eq : c.iterations = searchBound arenas := by
  rw [iterations, inv.held, inv.live, holdings, ledger, Multiset.coe_card, Multiset.coe_card, List.length_map, List.length_map,
    searchBound]

theorem malloc (allowed : c.Allows (.malloc req q fuel)) : ∃ p s arenas',
    Alloc.malloc fuel (BitVec.ofNat 32 req) (c.heap.enter q) = some (p, s) ∧ Malloced req (c.heap.enter q) arenas p s arenas' := by
  obtain ⟨small, available, enough⟩ := allowed
  rw [inv.iterations_eq] at enough
  obtain ⟨p, s, done, arenas', malloced⟩ := malloc_yields (inv.heap.enter q) small (inv.supplied small available) enough
  exact ⟨p, s, arenas', done, malloced⟩

theorem free (allowed : c.Allows (.free e)) : ∃ b ∈ Alloc.live arenas, b.grant = e ∧ ∃ s arenas',
    Alloc.free e.pointer (c.heap.enter 0#64) = some ((), s) ∧ Freed b (c.heap.enter 0#64) arenas s arenas' := by
  obtain ⟨b, member, rfl⟩ := inv.block allowed
  obtain ⟨_, s, done, arenas', freed⟩ := free_yields (inv.heap.enter 0#64) member
  exact ⟨b, member, rfl, s, arenas', done, freed⟩

theorem progress {call : Call} (allowed : c.Allows call) : ∃ c', Step c call c' := by
  cases call with
  | malloc req q fuel =>
    obtain ⟨p, s, arenas', done, -⟩ := inv.malloc allowed
    exact ⟨_, .malloc allowed done⟩
  | free e =>
    obtain ⟨b, member, same, s, arenas', done, -⟩ := inv.free allowed
    exact ⟨_, .free allowed done⟩
  | write x v => exact ⟨_, .write allowed⟩

end Client.Inv

inductive Client.Effect (c : Client) (arenas : List Arena) (c' : Client) (arenas' : List Arena) : Call → Prop
  | malloc {req fuel : Nat} {q p : W64} (malloced : Malloced req (c.heap.enter q) arenas p c'.heap arenas')
      (live : c'.live = served p req + c.live) : c.Effect arenas c' arenas' (.malloc req q fuel)
  | free {b : Block} (member : b ∈ Alloc.live arenas) (freed : Freed b (c.heap.enter 0#64) arenas c'.heap arenas')
      (live : c'.live = c.live.erase b.grant) : c.Effect arenas c' arenas' (.free b.grant)
  | write {b : Block} {x : W64} {v : BitVec 8} (member : b ∈ Alloc.live arenas) (own : b.grant.Owns x)
      (stored : c' = { c with heap := { c.heap with mem := Function.update c.heap.mem x v } }) (same : arenas' = arenas) :
      c.Effect arenas c' arenas' (.write x v)

theorem Good.unbooked (good : Good arenas) (member : b ∈ live arenas) {x : W64} (own : b.grant.Owns x) :
    ¬ Bookkeeping arenas x := by
  obtain ⟨a, listed, inside, low, high, stop, fits⟩ := good.live_bounds member
  have payload : x ∈ b.payload := by
    simp only [Grant.Owns, Block.grant] at own
    rw [ofNat_toNat (by omega)] at own
    exact own
  exact good.toLaid.payload_free listed inside payload

namespace Client.Inv

variable {call : Call} (inv : c.Inv arenas)
include inv

theorem settle_malloc (malloced : Malloced req (c.heap.enter q) arenas p s arenas') :
    (c.settle q s (served p req + c.live)).Inv arenas' := by
  obtain ⟨live, held, returned⟩ := malloced.books
  refine ⟨malloced.inv, ?_, ?_⟩
  · rw [live, ← inv.live]
    rfl
  · simp only [settle]
    rw [returned, Multiset.coe_nil, Multiset.sub_zero, inv.held, held]

theorem settle_free (freed : Freed b (c.heap.enter 0#64) arenas s arenas') :
    (c.settle 0#64 s (c.live.erase b.grant)).Inv arenas' := by
  obtain ⟨live, given, returned, held⟩ := freed.books
  refine ⟨freed.inv, ?_, ?_⟩
  · simp only [settle]
    rw [inv.live, live, Multiset.singleton_add, Multiset.erase_cons_head]
  · simp only [settle]
    have given' : s.returned = given := returned
    rw [granted, if_pos rfl, Multiset.zero_add, given', inv.held, held, Multiset.add_comm, Multiset.add_sub_cancel_right]

theorem store (member : b ∈ Alloc.live arenas) {x : W64} (own : b.grant.Owns x) (v : BitVec 8) :
    ({ c with heap := { c.heap with mem := Function.update c.heap.mem x v } } : Client).Inv arenas := by
  obtain ⟨good, holds, bet, unlocked, allocated, inuse⟩ := inv.heap
  refine ⟨⟨good, holds.congr fun y booked => ?_, bet, unlocked, allocated, inuse⟩, inv.live, inv.held⟩
  apply Function.update_of_ne
  intro same
  rw [same] at booked
  exact good.unbooked member own booked

theorem effect (step : Step c call c') : ∃ arenas', c'.Inv arenas' ∧ c.Effect arenas c' arenas' call := by
  cases step with
  | malloc allowed done =>
    obtain ⟨p, s, arenas', done', malloced⟩ := inv.malloc allowed
    cases done.symm.trans done'
    exact ⟨arenas', inv.settle_malloc malloced, .malloc malloced rfl⟩
  | free allowed done =>
    obtain ⟨b, member, rfl, s, arenas', done', freed⟩ := inv.free allowed
    cases done.symm.trans done'
    exact ⟨arenas', inv.settle_free freed, .free member freed rfl⟩
  | write allowed =>
    obtain ⟨e, owned, own⟩ := allowed
    obtain ⟨b, member, rfl⟩ := inv.block owned
    exact ⟨arenas, inv.store member own _, .write member own rfl rfl⟩

end Client.Inv

theorem Good.grants_apart {b' : Block} (good : Good arenas) (member : b ∈ live arenas) (member' : b' ∈ live arenas)
    (ne : b ≠ b') : b.grant.pointer.toNat + b.grant.bytes < b'.grant.pointer.toNat ∨
      b'.grant.pointer.toNat + b'.grant.bytes < b.grant.pointer.toNat := by
  obtain ⟨a, listed, inside, low, high, stop, fits⟩ := good.live_bounds member
  obtain ⟨a', listed', inside', low', high', stop', fits'⟩ := good.live_bounds member'
  have apart := good.toLaid.blocks_apart listed inside listed' inside' ne
  have bounds := b.pointer_bounds
  have bounds' := b'.pointer_bounds
  unfold Block.Apart at apart
  simp only [Block.grant]
  rw [ofNat_toNat (by omega), ofNat_toNat (by omega)]
  omega

namespace Client.Effect

variable {call : Call} (effect : c.Effect arenas c' arenas' call) (inv : c.Inv arenas) (member : b ∈ Alloc.live arenas)
include effect inv member

theorem kept (spared : call ≠ .free b.grant) : b.grant ∈ c'.live := by
  have here : b.grant ∈ c.live := by
    rw [inv.live]
    exact List.mem_map_of_mem member
  cases effect with
  | malloc malloced live =>
    rw [live]
    exact Multiset.mem_add.mpr (.inr here)
  | @free b' member' freed live =>
    have ne : b.grant ≠ b'.grant := fun same => spared (by rw [same])
    rw [live]
    exact (Multiset.mem_erase_of_ne ne).mpr here
  | write member' own stored same =>
    rw [stored]
    exact here

theorem frame {x : W64} (own : b.grant.Owns x) (unwritten : ∀ v, call ≠ .write x v) : c'.heap.mem x = c.heap.mem x := by
  cases effect with
  | malloc malloced live =>
    obtain ⟨s1, serves, -⟩ := malloced.serves
    obtain ⟨new, perm, -⟩ := serves.live malloced.inv.good
    exact malloced.frame x (malloced.inv.good.unbooked (perm.mem_iff.mpr (List.mem_append_right _ member)) own)
  | free member' freed live => exact freed.frame x (inv.heap.good.unbooked member own)
  | @write b' y v member' own' stored same =>
    rw [stored]
    apply Function.update_of_ne
    intro equal
    rw [equal] at unwritten
    exact unwritten v rfl

end Client.Effect

end Neutrino.Alloc
