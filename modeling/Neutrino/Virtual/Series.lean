import Neutrino.Virtual.Regions

namespace Neutrino.Virtual

open Library

section Rows

variable {c c' : Core} {roots ram : Set Frame} {mirror t g : Frame}

theorem Family.edit_row (family : Family c roots ram mirror) (member : t ∈ roots) (edit : Edit t c c')
    (apart : ∀ r ∈ roots, ¬ IsTable c.mem r g) (unused : g ∉ c.supply) : c'.mem g = c.mem g := by
  cases edit with
  | link linked =>
    cases linked with
    | @intro xs h f i rest prop place high absent taken =>
      have fresh : g ≠ f := by
        rintro rfl
        exact unused (first_mem taken)
      have other : g ≠ h := by
        rintro rfl
        exact apart t member ⟨xs, place⟩
      funext j
      exact link_of_ne fresh fun both => other both.1
  | @leaf xs h place last i e =>
    refine Function.update_of_ne ?_ _ _
    rintro rfl
    exact apart t member ⟨xs, place⟩
  | @drop xs h k i place high outside links vacant =>
    funext j
    refine clear_of_ne ?_
    rintro ⟨rfl, -⟩
    exact apart t member ⟨xs, place⟩
  | close =>
    refine Function.update_of_ne ?_ _ _
    rintro rfl
    exact apart c.cr3 family.active ⟨[], rfl⟩

theorem Family.edits_row (family : Family c roots ram mirror) (member : t ∈ roots) (edits : Edits t c c')
    (apart : ∀ r ∈ roots, ¬ IsTable c.mem r g) (unused : g ∉ c.supply) :
    c'.mem g = c.mem g ∧ (∀ r ∈ roots, ¬ IsTable c'.mem r g) ∧ g ∉ c'.supply := by
  refine ⟨?_, fun r root table => ?_, fun stocked => unused (edits.supply stocked)⟩
  · induction edits with
    | refl => rfl
    | @tail d d' before edit ih =>
      rw [← ih]
      refine (family.edits member before).edit_row member edit (fun r root table => ?_)
        fun stocked => unused (Edits.supply before stocked)
      rcases family.edits_tables member root before table with old | new
      · exact apart r root old
      · exact unused new
  · rcases family.edits_tables member root edits table with old | new
    · exact apart r root old
    · exact unused new

end Rows

/-- The table that a call names, of one of the spaces. -/
structure Names (c : Core) (roots : Set Frame) (table : W64) (t : Frame) : Prop where
  aligned : frameAddress (frameOf table) = table
  target : c.target table = t
  member : t ∈ roots

/-- A page that the tables of a space have room for. -/
structure Room (c : Core) (t : Frame) (v : W64) : Prop where
  inside : canonical (pageNumber v) = true
  outside : getPl4Index v ≠ recurseActive
  way : plain c.mem t (directories v) = true

/-- What one or more mappings in the space `t` have done, which took at most so many frames. -/
structure Maps (roots : Set Frame) (t : Frame) (pages : PageNumber → Prop) (frames : Nat) (c c' : Core) : Prop where
  edits : Edits t c c'
  others : ∀ r ∈ roots, r = t ∨ t = c.cr3 → ∀ q, slotOf q ≠ recurseActive → ¬ pages q →
    walk c'.mem r q = walk c.mem r q
  supply : c.supply.length ≤ c'.supply.length + frames

section Mapping

variable {m : Machine} {roots ram : Set Frame} {mirror t : Frame} {table v physAddr : W64} {prop : PageProperties}

theorem Family.vmmMapPage_yields (family : Family m.core roots ram mirror) (names : Names m.core roots table t)
    (room : Room m.core t v) (physAddr : W64) (prop : PageProperties) (enough : 3 ≤ m.core.supply.length) :
    Yields m (vmmMapPage table physAddr v prop) fun _ m' =>
      Maps roots t (· = pageNumber v) 3 m.core m'.core ∧
      ∃ entries, walk m'.core.mem t (pageNumber v) = some ⟨entries, frameOf physAddr⟩ := by
  obtain ⟨aligned, rfl, member⟩ := names
  have ready := family.ready member
  have edit := family.editable member room.outside room.way
  have there := edit.shut ready.apart
  have same : (m.core.shut (m.core.target table)).supply = m.core.supply := shut_supply
  rw [← same] at enough
  obtain ⟨c', taken, fewer⟩ := @mapPage_total _ (m.core.target table) v physAddr prop enough
  refine ((vmmMapPage_simulates physAddr prop aligned ready edit).yields taken).mono ?_
  rintro ⟨⟩ m' ⟨core, -⟩
  have edits := (shut_edits m.core (m.core.target table)).trans (mapPage_edits there taken)
  rw [core]
  obtain ⟨above, found⟩ := mapPage_walk there room.inside taken
  refine ⟨⟨edits, fun r root which q outside other => ?_, by rw [← same]; exact fewer⟩, _, found⟩
  have family' := family.edits member (shut_edits m.core (m.core.target table))
  rw [mapPage_other there room.inside (family'.space root) (family'.aligned member root) taken other outside]
  rcases which with rfl | active
  · exact walk_shut ready.apart outside
  · rw [Core.shut, if_pos active]

theorem Names.edits {c c' : Core} {t' : Frame} (names : Names c roots table t) (edits : Edits t' c c') :
    Names c' roots table t := by
  refine ⟨names.aligned, ?_, names.member⟩
  rw [← names.target, Core.target, Core.target, edits.cr3]

theorem Room.edits {c c' : Core} {t' : Frame} (room : Room c t v) (family : Family c roots ram mirror)
    (member : t' ∈ roots) (root : t ∈ roots) (edits : Edits t' c c') : Room c' t v :=
  ⟨room.inside, room.outside, family.edits_plain member root edits room.outside room.way⟩

theorem Maps.trans {c c' c'' : Core} {pages pages' : PageNumber → Prop} {frames frames' : Nat}
    (first : Maps roots t pages frames c c') (second : Maps roots t pages' frames' c' c'') :
    Maps roots t (fun q => pages q ∨ pages' q) (frames + frames') c c'' := by
  refine ⟨first.edits.trans second.edits, fun r root which q outside other => ?_, ?_⟩
  · rw [second.others r root (by rw [first.edits.cr3]; exact which) q outside fun later => other (.inr later),
      first.others r root which q outside fun earlier => other (.inl earlier)]
  · have one := first.supply
    have two := second.supply
    omega

theorem Maps.mono {c c' : Core} {pages pages' : PageNumber → Prop} {frames : Nat}
    (maps : Maps roots t pages frames c c') (more : ∀ q, pages q → pages' q) : Maps roots t pages' frames c c' :=
  ⟨maps.edits, fun r root which q outside other => maps.others r root which q outside fun held => other (more q held),
    maps.supply⟩

theorem Family.mapRun_yields (family : Family m.core roots ram mirror) (names : Names m.core roots table t) {n : Nat}
    {phys virt : Nat → W64} (rooms : ∀ i < n, Room m.core t (virt i))
    (distinct : ∀ i < n, ∀ j < n, pageNumber (virt i) = pageNumber (virt j) → i = j) (prop : PageProperties)
    (enough : 3 * n ≤ m.core.supply.length) :
    Yields m ((List.range n).forM fun i => vmmMapPage table (phys i) (virt i) prop) fun _ m' =>
      Maps roots t (fun q => ∃ i < n, q = pageNumber (virt i)) (3 * n) m.core m'.core ∧
      ∀ i < n, ∃ entries, walk m'.core.mem t (pageNumber (virt i)) = some ⟨entries, frameOf (phys i)⟩ := by
  refine Yields.forM_range (fun k (m' : Machine) =>
    Maps roots t (fun q => ∃ i < k, q = pageNumber (virt i)) (3 * k) m.core m'.core ∧
    ∀ i < k, ∃ entries, walk m'.core.mem t (pageNumber (virt i)) = some ⟨entries, frameOf (phys i)⟩) ?_ ?_
  · exact ⟨⟨.refl, fun _ _ _ _ _ _ => rfl, Nat.le_refl _⟩, nofun⟩
  rintro k below m1 ⟨maps, walks⟩
  have member := names.member
  have left := maps.supply
  refine ((family.edits member maps.edits).vmmMapPage_yields (names.edits maps.edits)
    ((rooms k below).edits family member member maps.edits) (phys k) prop (by omega)).mono ?_
  rintro ⟨⟩ m2 ⟨next, entries, found⟩
  refine ⟨(maps.trans next).mono ?_, fun i upto => ?_⟩
  · rintro q (⟨i, earlier, rfl⟩ | rfl)
    · exact ⟨i, by omega, rfl⟩
    · exact ⟨k, Nat.lt_succ_self k, rfl⟩
  · rcases Nat.lt_succ_iff_lt_or_eq.mp upto with earlier | rfl
    · obtain ⟨entries', found'⟩ := walks i earlier
      refine ⟨entries', ?_⟩
      rw [next.others t member (.inl rfl) _ ?_ ?_, found']
      · rw [slotOf_pageNumber]
        exact (rooms i (by omega)).outside
      · intro same
        exact absurd (distinct i (by omega) k below same) (by omega)
    · exact ⟨entries, found⟩

end Mapping

end Neutrino.Virtual
