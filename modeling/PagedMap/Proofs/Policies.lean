import Mathlib
import PagedMap.Policy

/-!
# What replacement policies track

The two policies choose their victims in different ways, but keep track of pages in the same way, up
to the order of the pages: a page that is not tracked comes in, for one victim if the policy is full
(`Policy.add_of_not_mem`); adding a page that is tracked and hits change nothing
(`Policy.add_of_mem`, `Policy.pages_hit`); and a removal takes out the page with the key
(`Policy.perm_pages_remove`).

This holds of every policy that is reached from an empty one (`Policy.Valid`): the keys of the pages
differ, the capacity is kept to, and the positions that a clock remembers are those of its slots.
-/

namespace PagedMap

variable {ω : Type}

/-- Of pages with different keys, those besides one are those with another key. -/
theorem perm_filter_of_perm_cons {xs rest : List (Page ω)} {x : Page ω} (h : xs.Perm (x :: rest))
    (hkeys : (xs.map (·.key)).Nodup) : rest.Perm (xs.filter (·.key ≠ x.key)) := by
  have hnodup : ((x :: rest).map (·.key)).Nodup := (h.map _).nodup_iff.1 hkeys
  have hother (y : Page ω) (hy : y ∈ rest) : y.key ≠ x.key := fun heq =>
    (List.nodup_cons.1 hnodup).1 (List.mem_map.2 ⟨y, hy, heq⟩)
  have hrest : (x :: rest).filter (·.key ≠ x.key) = rest := by
    rw [List.filter_cons_of_neg (by simp), List.filter_eq_self]
    simpa using hother
  exact hrest ▸ (h.filter _).symm

/-- If a page with a new key comes in, the keys still differ. -/
theorem nodup_keys_of_perm_cons {xs ys : List (Page ω)} {x page : Page ω}
    (hkeys : (xs.map (·.key)).Nodup) (hnew : ∀ x ∈ xs, x.key ≠ page.key)
    (h : (x :: ys).Perm (page :: xs)) : (ys.map (·.key)).Nodup := by
  have hall : ((page :: xs).map (·.key)).Nodup :=
    List.nodup_cons.2 ⟨by simpa using hnew, hkeys⟩
  exact (List.nodup_cons.1 ((h.map _).nodup_iff.2 hall)).2

/-! ### The clock -/

namespace Clock

/-- The pages of slots, slot by slot. -/
def faces (slots : List (Option (Slot ω))) : List (Option (Page ω)) :=
  slots.map (Option.map (·.page))

variable {c : Clock ω} {slots : List (Option (Slot ω))} {page : Page ω} {key : PageKey} {i : Nat}

theorem pages_eq_reduceOption (c : Clock ω) : c.pages = (faces c.slots).reduceOption := by
  simp [pages, faces, List.reduceOption, List.filterMap_map]

/-- The reference bits do not matter for the pages. -/
theorem faces_mark (slots : List (Option (Slot ω))) (i : Nat) (bit : Bool) :
    faces (mark slots i bit) = faces slots := by
  refine List.ext_getElem? fun j => ?_
  simp only [faces, mark, List.getElem?_map, List.getElem?_modify]
  by_cases hij : i = j
  · cases slots[j]? <;> simp [hij, Function.comp_def]
  · simp [hij]

/-- Replacing what is in a slot replaces its page. -/
theorem perm_pages_set {old : Option (Slot ω)} (h : c.slots[i]? = some old) (new : Option (Slot ω))
    {c' : Clock ω} (hslots : c'.slots = c.slots.set i new) :
    ((old.map (·.page)).toList ++ c'.pages).Perm ((new.map (·.page)).toList ++ c.pages) := by
  obtain ⟨hi, hold⟩ := List.getElem?_eq_some_iff.1 h
  have hset : (c.slots.set i new).Perm (new :: c.slots.eraseIdx i) :=
    List.set_perm_cons_eraseIdx hi new
  have hsame : c.slots.Perm (old :: c.slots.eraseIdx i) :=
    hold ▸ (List.getElem_cons_eraseIdx_perm hi).symm
  have hcons (slot : Option (Slot ω)) (rest : List (Option (Slot ω))) :
      (slot :: rest).filterMap (·.map (·.page)) =
        (slot.map (·.page)).toList ++ rest.filterMap (·.map (·.page)) := by
    cases slot <;> simp
  rw [pages, pages, hslots]
  refine ((hset.filterMap _).append_left _).trans
    (.trans ?_ ((hsame.filterMap _).append_left _).symm)
  rw [hcons, hcons]
  exact List.perm_append_comm_assoc _ _ _

/-- What is true of every clock that was used as a clock. -/
structure Valid (c : Clock ω) : Prop where
  pos : 0 < c.capacity
  length_le : c.slots.length ≤ c.capacity
  keys : (c.pages.map (·.key)).Nodup
  mem_free : ∀ i, i ∈ c.free ↔ c.slots[i]? = some none
  nodup_free : c.free.Nodup
  /-- The hand of a clock without slots is at the place of the first one. -/
  hand_lt : c.hand < max 1 c.slots.length

theorem valid_empty (capacity : Nat) : (empty capacity : Clock ω).Valid where
  pos := Nat.lt_of_lt_of_le Nat.zero_lt_one (Nat.le_max_right _ _)
  length_le := Nat.zero_le _
  keys := List.nodup_nil
  mem_free i := by simp [empty]
  nodup_free := List.nodup_nil
  hand_lt := Nat.lt_of_lt_of_le Nat.zero_lt_one (Nat.le_max_left _ _)

theorem position?_eq_some (h : c.position? key = some i) :
    ∃ s, c.slots[i]? = some (some s) ∧ s.page.key = key := by
  obtain ⟨hi, hany, -⟩ := List.findIdx?_eq_some_iff_getElem.1 h
  obtain ⟨s, hs, hkey⟩ := (Option.any_eq_true _ _).1 hany
  exact ⟨s, List.getElem?_eq_some_iff.2 ⟨hi, hs⟩, by simpa using hkey⟩

theorem mem_pages : page ∈ c.pages ↔ ∃ s, some s ∈ c.slots ∧ s.page = page := by
  simp only [pages, List.mem_filterMap, Option.map_eq_some_iff]
  constructor
  · rintro ⟨slot, hslot, s, rfl, hs⟩
    exact ⟨s, hslot, hs⟩
  · rintro ⟨s, hslot, hs⟩
    exact ⟨some s, hslot, s, rfl, hs⟩

theorem position?_eq_none : c.position? key = none ↔ ∀ x ∈ c.pages, x.key ≠ key := by
  unfold position?
  rw [List.findIdx?_eq_none_iff]
  constructor
  · intro h x hx
    obtain ⟨s, hs, rfl⟩ := mem_pages.1 hx
    simpa using h _ hs
  · intro h slot hslot
    cases slot with
    | none => rfl
    | some s => simpa using h s.page (mem_pages.2 ⟨s, hslot, rfl⟩)

theorem pages_hit (c : Clock ω) (key : PageKey) : (c.hit key).pages = c.pages := by
  unfold hit
  split
  · rw [pages_eq_reduceOption, pages_eq_reduceOption, faces_mark]
  · rfl

theorem capacity_hit (c : Clock ω) (key : PageKey) : (c.hit key).capacity = c.capacity := by
  unfold hit
  split <;> rfl

theorem length_mark (slots : List (Option (Slot ω))) (i : Nat) (bit : Bool) :
    (mark slots i bit).length = slots.length := List.length_modify ..

theorem getElem?_eq_none_of_faces {slots' : List (Option (Slot ω))}
    (h : faces slots' = faces slots) : slots'[i]? = some none ↔ slots[i]? = some none := by
  have hi := congrArg (·[i]?) h
  simp only [faces, List.getElem?_map] at hi
  rcases h₁ : slots[i]? with _ | _ | s <;> rcases h₂ : slots'[i]? with _ | _ | s' <;>
    simp [h₁, h₂] at hi ⊢

theorem Valid.congr {c' : Clock ω} (hv : c.Valid) (hfaces : faces c'.slots = faces c.slots)
    (hcapacity : c'.capacity = c.capacity) (hfree : c'.free = c.free)
    (hhand : c'.hand < max 1 c'.slots.length) : c'.Valid where
  pos := hcapacity ▸ hv.pos
  length_le := by
    have hlength := congrArg List.length hfaces
    simp only [faces, List.length_map] at hlength
    rw [hlength, hcapacity]
    exact hv.length_le
  keys := by
    rw [pages_eq_reduceOption, hfaces, ← pages_eq_reduceOption]
    exact hv.keys
  mem_free i := by rw [hfree, hv.mem_free, getElem?_eq_none_of_faces hfaces]
  nodup_free := hfree ▸ hv.nodup_free
  hand_lt := hhand

theorem Valid.hit (hv : c.Valid) (key : PageKey) : (c.hit key).Valid := by
  unfold Clock.hit
  split
  · rename_i i hi
    refine hv.congr (faces_mark _ _ _) rfl rfl ?_
    rw [length_mark]
    exact hv.hand_lt
  · exact hv

/-- Moving the hand changes reference bits only, and leads to a slot. -/
theorem sweep_spec (steps : Nat) {c : Clock ω} (h : c.hand < c.slots.length) :
    (sweep steps c).2 < c.slots.length ∧ faces (sweep steps c).1.slots = faces c.slots ∧
      (sweep steps c).1.capacity = c.capacity ∧ (sweep steps c).1.free = c.free ∧
      (sweep steps c).1.hand < c.slots.length := by
  induction steps generalizing c with
  | zero => exact ⟨h, rfl, rfl, rfl, h⟩
  | succ steps ih =>
    have hnext : (c.hand + 1) % c.slots.length < c.slots.length := Nat.mod_lt _ (by omega)
    simp only [sweep]
    split
    · split
      · have hlength : (mark c.slots c.hand false).length = c.slots.length := length_mark _ _ _
        obtain ⟨hlt, hfaces, hrest⟩ := ih
          (c :=
            { c with hand := (c.hand + 1) % c.slots.length, slots := mark c.slots c.hand false })
          (by simpa [hlength] using hnext)
        rw [hlength] at hlt hrest
        exact ⟨hlt, hfaces.trans (faces_mark _ _ _), hrest⟩
      · exact ⟨h, rfl, rfl, rfl, hnext⟩
    · exact ih (c := { c with hand := (c.hand + 1) % c.slots.length }) hnext

/-- Vacating a slot takes its page out. -/
theorem perm_pages_remove (hv : c.Valid) (key : PageKey) :
    (c.remove key).Valid ∧ (c.remove key).pages.Perm (c.pages.filter (·.key ≠ key)) := by
  unfold remove
  split
  · rename_i i hi
    obtain ⟨s, hs, rfl⟩ := position?_eq_some hi
    obtain ⟨hlt, -⟩ := List.getElem?_eq_some_iff.1 hs
    have hperm :
        (s.page :: Clock.pages { c with slots := c.slots.set i none, free := i :: c.free }).Perm
        c.pages := perm_pages_set hs none rfl
    have hpages := perm_filter_of_perm_cons hperm.symm hv.keys
    refine ⟨⟨hv.pos, by simpa using hv.length_le, ?_, fun j => ?_, ?_,
      by simpa using hv.hand_lt⟩, hpages⟩
    · exact ((hpages.map _).nodup_iff).2 ((List.filter_sublist.map _).nodup hv.keys)
    · by_cases hj : i = j
      · subst hj
        simp [hlt]
      · simp [List.getElem?_set_ne hj, hv.mem_free, Ne.symm hj]
    · refine List.nodup_cons.2 ⟨fun hmem => ?_, hv.nodup_free⟩
      have hnone := (hv.mem_free i).1 hmem
      rw [hs] at hnone
      simp at hnone
  · rename_i hnone
    refine ⟨hv, ?_⟩
    rw [List.filter_eq_self.2 fun x hx => by simpa using position?_eq_none.1 hnone x hx]

/-! #### Where a new page goes -/

/-- A clock without vacant slots has a page in each slot. -/
theorem Valid.exists_slot (hv : c.Valid) (hfree : c.free = []) (hi : i < c.slots.length) :
    ∃ s, c.slots[i]? = some (some s) := by
  rw [List.getElem?_eq_getElem hi]
  cases hslot : c.slots[i] with
  | some s => exact ⟨s, rfl⟩
  | none =>
    have hmem := (hv.mem_free i).2 (List.getElem?_eq_some_iff.2 ⟨hi, hslot⟩)
    simp [hfree] at hmem

theorem Valid.length_pages (hv : c.Valid) (hfree : c.free = []) :
    c.pages.length = c.slots.length := by
  have hall : ∀ face ∈ faces c.slots, face.isSome := by
    intro face hface
    obtain ⟨slot, hslot, rfl⟩ := List.mem_map.1 hface
    obtain ⟨i, hi, rfl⟩ := List.getElem_of_mem hslot
    obtain ⟨s, hs⟩ := hv.exists_slot hfree hi
    rw [List.getElem?_eq_getElem hi, Option.some.injEq] at hs
    simp [hs]
  rw [pages_eq_reduceOption]
  simpa [faces] using List.reduceOption_length_eq_iff.2 hall

theorem Valid.fill {free : List Nat} (hv : c.Valid) (hnew : ∀ x ∈ c.pages, x.key ≠ page.key)
    (hfree : c.free = i :: free) {c' : Clock ω}
    (hc' : c' = { c with slots := c.slots.set i (some ⟨page, false⟩), free }) :
    c'.Valid ∧ c.pages.length < c.slots.length ∧ c'.pages.Perm (page :: c.pages) := by
  subst hc'
  have hi : c.slots[i]? = some none := (hv.mem_free i).1 (hfree ▸ List.mem_cons_self)
  obtain ⟨hlt, -⟩ := List.getElem?_eq_some_iff.1 hi
  have hperm : (Clock.pages { c with slots := c.slots.set i (some ⟨page, false⟩), free }).Perm
      (page :: c.pages) := perm_pages_set hi (some ⟨page, false⟩) rfl
  have hroom : c.pages.length < c.slots.length := by
    rw [pages_eq_reduceOption]
    have hnone : none ∈ faces c.slots := List.mem_map.2 ⟨none, List.mem_of_getElem? hi, rfl⟩
    simpa [faces] using List.reduceOption_length_lt_iff.2 hnone
  have hnodup : (i :: free).Nodup := hfree ▸ hv.nodup_free
  refine ⟨⟨hv.pos, by simpa using hv.length_le, ?_, fun j => ?_, (List.nodup_cons.1 hnodup).2,
    by simpa using hv.hand_lt⟩, hroom, hperm⟩
  · rw [(hperm.map _).nodup_iff]
    exact List.nodup_cons.2 ⟨by simpa using hnew, hv.keys⟩
  · by_cases hj : i = j
    · subst hj
      simpa [hlt] using (List.nodup_cons.1 hnodup).1
    · have hmem : j ∈ i :: free ↔ c.slots[j]? = some none := hfree ▸ hv.mem_free j
      simpa [List.getElem?_set_ne hj, Ne.symm hj] using hmem

theorem Valid.grow (hv : c.Valid) (hnew : ∀ x ∈ c.pages, x.key ≠ page.key)
    (hroom : c.slots.length < c.capacity) {c' : Clock ω}
    (hc' : c' = { c with slots := c.slots ++ [some ⟨page, false⟩] }) :
    c'.Valid ∧ c'.pages.Perm (page :: c.pages) := by
  subst hc'
  have hperm : (Clock.pages { c with slots := c.slots ++ [some ⟨page, false⟩] }).Perm
      (page :: c.pages) := by
    have happend : Clock.pages { c with slots := c.slots ++ [some ⟨page, false⟩] } =
        c.pages ++ [page] := by simp [pages]
    exact happend ▸ List.perm_append_singleton _ _
  refine ⟨⟨hv.pos, by simpa using hroom, ?_, fun j => ?_, hv.nodup_free, ?_⟩, hperm⟩
  · rw [(hperm.map _).nodup_iff]
    exact List.nodup_cons.2 ⟨by simpa using hnew, hv.keys⟩
  · rw [hv.mem_free]
    rcases Nat.lt_trichotomy j c.slots.length with hlt | rfl | hgt
    · rw [List.getElem?_append_left hlt]
    · simp
    · rw [List.getElem?_append_right hgt.le, List.getElem?_eq_none hgt.le,
        List.getElem?_eq_none (by simp; omega)]
  · have hhand := hv.hand_lt
    simp
    omega

theorem Valid.replace (hv : c.Valid) (hnew : ∀ x ∈ c.pages, x.key ≠ page.key) (hfree : c.free = [])
    (hi : i < c.slots.length) {c' : Clock ω}
    (hc' : c' = { c with slots := c.slots.set i (some ⟨page, false⟩) }) :
    c'.Valid ∧ ∃ victim ∈ c.pages, c.pageAt? i = some victim ∧
      (victim :: c'.pages).Perm (page :: c.pages) := by
  subst hc'
  obtain ⟨s, hs⟩ := hv.exists_slot hfree hi
  have hperm : (s.page :: Clock.pages { c with slots := c.slots.set i (some ⟨page, false⟩) }).Perm
      (page :: c.pages) := perm_pages_set hs (some ⟨page, false⟩) rfl
  refine ⟨⟨hv.pos, by simpa using hv.length_le, nodup_keys_of_perm_cons hv.keys hnew hperm,
    fun j => ?_, hv.nodup_free, by simpa using hv.hand_lt⟩, s.page,
    mem_pages.2 ⟨s, List.mem_of_getElem? hs, rfl⟩, by simp [pageAt?, hs], hperm⟩
  by_cases hj : i = j
  · subst hj
    simp [hi, hfree]
  · rw [List.getElem?_set_ne hj]
    exact hv.mem_free j

/-- A new page takes a vacant slot, grows the clock, or takes the place of a victim if the clock is
full. -/
theorem place_spec (hv : c.Valid) (hnew : ∀ x ∈ c.pages, x.key ≠ page.key) :
    (c.place page).1.Valid ∧ (c.place page).1.capacity = c.capacity ∧
      (c.pages.length < c.capacity ∧ (c.place page).2 = none ∧
          (c.place page).1.pages.Perm (page :: c.pages) ∨
        c.pages.length = c.capacity ∧ ∃ victim ∈ c.pages, (c.place page).2 = some victim ∧
          (victim :: (c.place page).1.pages).Perm (page :: c.pages)) := by
  unfold place
  split
  · rename_i i free hfree
    obtain ⟨hvalid, hroom, hperm⟩ := hv.fill hnew hfree rfl
    exact ⟨hvalid, rfl, Or.inl ⟨hroom.trans_le hv.length_le, rfl, hperm⟩⟩
  · rename_i hfree
    have hfull := hv.length_pages hfree
    split
    · rename_i hroom
      obtain ⟨hvalid, hperm⟩ := hv.grow hnew hroom rfl
      exact ⟨hvalid, rfl, Or.inl ⟨hfull ▸ hroom, rfl, hperm⟩⟩
    · rename_i hroom
      have hcapacity : c.slots.length = c.capacity := Nat.le_antisymm hv.length_le (by omega)
      have hlt : c.hand < c.slots.length := by
        have hpos := hv.pos
        have hhand := hv.hand_lt
        omega
      obtain ⟨hi, hfaces, hcap, hkept, hhand⟩ := sweep_spec (2 * c.slots.length) hlt
      generalize sweep (2 * c.slots.length) c = out at hi hfaces hcap hkept hhand
      obtain ⟨swept, i⟩ := out
      dsimp only at hi hfaces hcap hkept hhand ⊢
      have hlength : swept.slots.length = c.slots.length := by
        simpa [faces] using congrArg List.length hfaces
      have hswept : swept.Valid := hv.congr hfaces hcap hkept (by omega)
      have hpages : swept.pages = c.pages := by
        rw [pages_eq_reduceOption, hfaces, ← pages_eq_reduceOption]
      obtain ⟨hvalid, hvictim⟩ := hswept.replace (hpages.symm ▸ hnew) (hkept.trans hfree)
        (hi.trans_eq hlength.symm) rfl
      exact ⟨hvalid, hcap, Or.inr ⟨hfull.trans hcapacity, hpages ▸ hvictim⟩⟩

end Clock

/-! ### The lottery -/

namespace Lottery

variable {r : Lottery ω} {page : Page ω} {key : PageKey}

/-- Nothing else is taken out. -/
theorem perm_takeOut {α : Type} {xs : List α} {i : Nat} (hi : i < xs.length) :
    (xs[i] :: takeOut xs i).Perm xs := by
  obtain ⟨ys, last, rfl⟩ : ∃ ys last, xs = ys ++ [last] :=
    ⟨_, _, (List.dropLast_append_getLast (List.ne_nil_of_length_pos (by omega))).symm⟩
  have hlast : (ys ++ [last]).getLast? = some last := by simp
  simp only [takeOut, hlast]
  by_cases hlt : i < ys.length
  · rw [List.set_append_left _ _ hlt, List.dropLast_concat, List.getElem_append_left hlt]
    have hset : (ys.set i last).Perm (last :: ys.eraseIdx i) := List.set_perm_cons_eraseIdx hlt last
    refine (hset.cons _).trans (.trans (.swap _ _ _) ?_)
    exact ((List.getElem_cons_eraseIdx_perm hlt).cons last).trans
      (List.perm_append_singleton _ _).symm
  · obtain rfl : i = ys.length := by
      simp at hi
      omega
    simpa using (List.perm_append_singleton last ys).symm

/-- What is true of every lottery that was used as a lottery. -/
structure Valid (r : Lottery ω) : Prop where
  pos : 0 < r.capacity
  length_le : r.pages.length ≤ r.capacity
  keys : (r.pages.map (·.key)).Nodup

theorem valid_empty (capacity : Nat) (seed : UInt64) : (empty capacity seed : Lottery ω).Valid where
  pos := Nat.lt_of_lt_of_le Nat.zero_lt_one (Nat.le_max_right _ _)
  length_le := Nat.zero_le _
  keys := List.nodup_nil

theorem position?_eq_none : r.position? key = none ↔ ∀ x ∈ r.pages, x.key ≠ key := by
  simp [position?, List.findIdx?_eq_none_iff]

theorem perm_pages_remove (hv : r.Valid) (key : PageKey) :
    (r.remove key).Valid ∧ (r.remove key).pages.Perm (r.pages.filter (·.key ≠ key)) := by
  unfold remove
  split
  · rename_i i hi
    obtain ⟨hlt, hkey, -⟩ := List.findIdx?_eq_some_iff_getElem.1 hi
    obtain rfl : r.pages[i].key = key := by simpa using hkey
    have hpages := perm_filter_of_perm_cons (perm_takeOut hlt).symm hv.keys
    refine ⟨⟨hv.pos, ?_, ?_⟩, hpages⟩
    · rw [length_takeOut]
      exact (Nat.sub_le _ _).trans hv.length_le
    · exact ((hpages.map _).nodup_iff).2 ((List.filter_sublist.map _).nodup hv.keys)
  · rename_i hnone
    refine ⟨hv, ?_⟩
    rw [List.filter_eq_self.2 fun x hx => by simpa using position?_eq_none.1 hnone x hx]

/-- Wherever a new page goes, the page that stood there leaves, and no other. -/
theorem replace_spec {i : Nat} (hv : r.Valid) (hnew : ∀ x ∈ r.pages, x.key ≠ page.key)
    (hi : i < r.pages.length) :
    (r.replace page i).1.Valid ∧ ∃ victim ∈ r.pages, (r.replace page i).2 = some victim ∧
      (victim :: (r.replace page i).1.pages).Perm (page :: r.pages) := by
  have hperm : (r.pages[i] :: (takeOut r.pages i ++ [page])).Perm (page :: r.pages) :=
    ((List.perm_append_singleton page _).cons _).trans
      (.trans (.swap _ _ _) ((perm_takeOut hi).cons _))
  refine ⟨⟨hv.pos, ?_, nodup_keys_of_perm_cons hv.keys hnew hperm⟩, r.pages[i],
    List.getElem_mem hi, List.getElem?_eq_getElem hi, hperm⟩
  have hlength := hperm.length_eq
  simp only [List.length_cons] at hlength
  exact (Nat.succ.inj hlength).le.trans hv.length_le

/-- A full row draws a position that exists, and replaces the page there. -/
theorem exists_draw (hv : r.Valid) (hroom : ¬ r.pages.length < r.capacity) (page : Page ω) :
    ∃ i generator, Generator.below r.pages.length r.generator = (i, generator) ∧
      i < r.pages.length ∧ r.place page = { r with generator }.replace page i := by
  have hpos : 0 < r.pages.length := hv.pos.trans_le (Nat.le_of_not_lt hroom)
  have hlt := Generator.below_lt hpos r.generator
  rcases hdraw : Generator.below r.pages.length r.generator with ⟨i, generator⟩
  rw [hdraw] at hlt
  refine ⟨i, generator, rfl, hlt, ?_⟩
  rw [place, if_neg hroom, hdraw]

/-- A new page makes the row longer, or takes the place of a victim if the row is full. -/
theorem place_spec (hv : r.Valid) (hnew : ∀ x ∈ r.pages, x.key ≠ page.key) :
    (r.place page).1.Valid ∧ (r.place page).1.capacity = r.capacity ∧
      (r.pages.length < r.capacity ∧ (r.place page).2 = none ∧
          (r.place page).1.pages.Perm (page :: r.pages) ∨
        r.pages.length = r.capacity ∧ ∃ victim ∈ r.pages, (r.place page).2 = some victim ∧
          (victim :: (r.place page).1.pages).Perm (page :: r.pages)) := by
  by_cases hroom : r.pages.length < r.capacity
  · have hall : ((page :: r.pages).map (·.key)).Nodup :=
      List.nodup_cons.2 ⟨by simpa using hnew, hv.keys⟩
    have hperm : (r.pages ++ [page]).Perm (page :: r.pages) := List.perm_append_singleton _ _
    rw [place, if_pos hroom]
    exact ⟨⟨hv.pos, by simpa using hroom, ((hperm.map _).nodup_iff).2 hall⟩, rfl,
      Or.inl ⟨hroom, rfl, hperm⟩⟩
  · obtain ⟨i, generator, -, hi, hplace⟩ := exists_draw hv hroom page
    have hdrawn : Valid { r with generator } := ⟨hv.pos, hv.length_le, hv.keys⟩
    obtain ⟨hvalid, hvictim⟩ := replace_spec hdrawn hnew hi
    rw [hplace]
    exact ⟨hvalid, rfl, Or.inr ⟨Nat.le_antisymm hv.length_le (Nat.le_of_not_lt hroom), hvictim⟩⟩

end Lottery

/-! ### Both policies -/

namespace Policy

/-- What is true of every policy that is reached from an empty one. -/
def Valid : Policy ω → Prop
  | clock c => c.Valid
  | lottery r => r.Valid

/-- The policy does not track any page and never did. -/
inductive Fresh : Policy ω → Prop
  | clock (capacity : Nat) : Fresh (clock (.empty capacity))
  | lottery (capacity : Nat) (seed : UInt64) : Fresh (lottery (.empty capacity seed))

variable {p : Policy ω} {page : Page ω} {key : PageKey}

theorem Fresh.valid (h : p.Fresh) : p.Valid := by
  cases h with
  | clock capacity => exact Clock.valid_empty capacity
  | lottery capacity seed => exact Lottery.valid_empty capacity seed

theorem Fresh.pages_eq (h : p.Fresh) : p.pages = [] := by
  cases h <;> rfl

theorem Valid.keys (hv : p.Valid) : (p.pages.map (·.key)).Nodup := by
  cases p with
  | clock c => exact Clock.Valid.keys hv
  | lottery r => exact Lottery.Valid.keys hv

theorem Valid.size_le (hv : p.Valid) : p.size ≤ p.capacity := by
  cases p with
  | clock c => exact (List.length_filterMap_le _ _).trans (Clock.Valid.length_le hv)
  | lottery r => exact Lottery.Valid.length_le hv

theorem pages_hit (p : Policy ω) (key : PageKey) : (p.hit key).pages = p.pages := by
  cases p with
  | clock c => exact c.pages_hit key
  | lottery r => rfl

theorem capacity_hit (p : Policy ω) (key : PageKey) : (p.hit key).capacity = p.capacity := by
  cases p with
  | clock c => exact c.capacity_hit key
  | lottery r => rfl

theorem Valid.hit (hv : p.Valid) (key : PageKey) : (p.hit key).Valid := by
  cases p with
  | clock c => exact Clock.Valid.hit hv key
  | lottery r => exact hv

theorem capacity_remove (p : Policy ω) (key : PageKey) : (p.remove key).capacity = p.capacity := by
  cases p with
  | clock c =>
    show (c.remove key).capacity = c.capacity
    unfold Clock.remove
    split <;> rfl
  | lottery r =>
    show (r.remove key).capacity = r.capacity
    unfold Lottery.remove
    split <;> rfl

theorem Valid.remove (hv : p.Valid) (key : PageKey) : (p.remove key).Valid := by
  cases p with
  | clock c => exact (Clock.perm_pages_remove hv key).1
  | lottery r => exact (Lottery.perm_pages_remove hv key).1

/-- A removal takes out the page with the key, and no other. -/
theorem perm_pages_remove (hv : p.Valid) (key : PageKey) :
    (p.remove key).pages.Perm (p.pages.filter (·.key ≠ key)) := by
  cases p with
  | clock c => exact (Clock.perm_pages_remove hv key).2
  | lottery r => exact (Lottery.perm_pages_remove hv key).2

theorem mem_pages_remove {x : Page ω} (hv : p.Valid) :
    x ∈ (p.remove key).pages ↔ x ∈ p.pages ∧ x.key ≠ key := by
  rw [(perm_pages_remove hv key).mem_iff]
  simp

/-- A page that is tracked counts as hit when it is added. -/
theorem add_of_mem (h : ∃ x ∈ p.pages, x.key = page.key) :
    (p.add page).2 = none ∧ (p.add page).1.pages = p.pages ∧
      (p.add page).1.capacity = p.capacity ∧ (p.Valid → (p.add page).1.Valid) := by
  obtain ⟨x, hx, hkey⟩ := h
  cases p with
  | clock c =>
    obtain ⟨i, hi⟩ : ∃ i, c.position? page.key = some i :=
      Option.ne_none_iff_exists'.1 fun hnone => Clock.position?_eq_none.1 hnone x hx hkey
    have hadd : Policy.add (.clock c) page = (.clock (c.hit page.key), none) := by
      simp [Policy.add, Clock.add, hi]
    rw [hadd]
    exact ⟨rfl, c.pages_hit _, c.capacity_hit _, fun hv => Clock.Valid.hit hv _⟩
  | lottery r =>
    obtain ⟨i, hi⟩ : ∃ i, r.position? page.key = some i :=
      Option.ne_none_iff_exists'.1 fun hnone => Lottery.position?_eq_none.1 hnone x hx hkey
    have hadd : Policy.add (.lottery r) page = (.lottery r, none) := by
      simp [Policy.add, Lottery.add, hi]
    rw [hadd]
    exact ⟨rfl, rfl, rfl, id⟩

/-- A page that is not tracked comes in, and if the policy is full one of the others has to
leave. -/
theorem add_of_not_mem (hv : p.Valid) (hnew : ∀ x ∈ p.pages, x.key ≠ page.key) :
    (p.add page).1.Valid ∧ (p.add page).1.capacity = p.capacity ∧
      (p.size < p.capacity ∧ (p.add page).2 = none ∧ (p.add page).1.pages.Perm (page :: p.pages) ∨
        p.size = p.capacity ∧ ∃ victim ∈ p.pages, (p.add page).2 = some victim ∧
          (victim :: (p.add page).1.pages).Perm (page :: p.pages)) := by
  cases p with
  | clock c =>
    have hadd : Policy.add (.clock c) page = (.clock (c.place page).1, (c.place page).2) := by
      simp [Policy.add, Clock.add, Clock.position?_eq_none.2 hnew]
    rw [hadd]
    exact Clock.place_spec hv hnew
  | lottery r =>
    have hadd : Policy.add (.lottery r) page = (.lottery (r.place page).1, (r.place page).2) := by
      simp [Policy.add, Lottery.add, Lottery.position?_eq_none.2 hnew]
    rw [hadd]
    exact Lottery.place_spec hv hnew

theorem victim_mem_pages {victim : Page ω} (hv : p.Valid) (hnew : ∀ x ∈ p.pages, x.key ≠ page.key)
    (h : (p.add page).2 = some victim) : victim ∈ p.pages := by
  obtain ⟨-, -, ⟨-, hnone, -⟩ | ⟨-, v, hmem, hsome, -⟩⟩ := add_of_not_mem hv hnew
  · simp [hnone] at h
  · exact Option.some.inj (hsome.symm.trans h) ▸ hmem

/-- After a new page was added, it is tracked, and so is every other page but the victim. -/
theorem mem_pages_add {x : Page ω} (hv : p.Valid) (hnew : ∀ x ∈ p.pages, x.key ≠ page.key) :
    x ∈ (p.add page).1.pages ↔ (x = page ∨ x ∈ p.pages) ∧ (p.add page).2 ≠ some x := by
  obtain ⟨hvalid, -, ⟨-, hnone, hperm⟩ | ⟨-, v, -, hsome, hperm⟩⟩ := add_of_not_mem hv hnew
  · simp [hnone, hperm.mem_iff]
  · have hkeys : ((v :: (p.add page).1.pages).map (·.key)).Nodup := by
      rw [(hperm.map _).nodup_iff]
      exact List.nodup_cons.2 ⟨by simpa using hnew, hv.keys⟩
    have hgone : v ∉ (p.add page).1.pages := fun hmem =>
      (List.nodup_cons.1 hkeys).1 (List.mem_map_of_mem hmem)
    have hmem := hperm.mem_iff (a := x)
    rw [List.mem_cons, List.mem_cons] at hmem
    rw [← hmem, hsome, ne_eq, Option.some.injEq]
    constructor
    · exact fun hx => ⟨Or.inr hx, fun heq => hgone (heq ▸ hx)⟩
    · exact fun ⟨hx, hne⟩ => hx.resolve_left (Ne.symm hne)

/-- Adding a page keeps to the capacity and brings in no other page. -/
theorem Valid.add (hv : p.Valid) (page : Page ω) : (p.add page).1.Valid ∧
    (p.add page).1.capacity = p.capacity ∧
    ∀ x ∈ (p.add page).1.pages, x = page ∨ x ∈ p.pages := by
  by_cases hmem : ∃ x ∈ p.pages, x.key = page.key
  · obtain ⟨-, hpages, hcapacity, hvalid⟩ := add_of_mem hmem
    exact ⟨hvalid hv, hcapacity, fun x hx => Or.inr (hpages ▸ hx)⟩
  · have hnew : ∀ x ∈ p.pages, x.key ≠ page.key := fun x hx heq => hmem ⟨x, hx, heq⟩
    obtain ⟨hvalid, hcapacity, -⟩ := add_of_not_mem hv hnew
    exact ⟨hvalid, hcapacity, fun x hx => ((mem_pages_add hv hnew).1 hx).1⟩

end Policy

end PagedMap
