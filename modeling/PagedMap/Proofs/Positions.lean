import Mathlib
import PagedMap.Proofs.Policies

/-!
# Policies that remember positions

A policy need not search for a page.  It may keep a table of the slots of a clock (`Clock.Indexed`)
or of the positions in the row of a lottery (`Lottery.Indexed`), and change the table along with the
slots and the row.  Here a slot or a position is only ever used after a check that it exists, and
without it there is no result.

The table stays in step (`Points`): a key comes in at a position, leaves it, or moves to another
one.  So the checks never fail, and such a policy does what the one that searches does
(`Policy.Indexed.answer?_spec`).
-/

namespace PagedMap

/-! ### Tables of positions -/

instance : Hashable PageKey := ⟨fun key => mixHash (hash key.ownerId) (hash key.pageId)⟩

/-- The table leads to the positions of exactly the keys that stand at one. -/
def Points (table : Std.HashMap PageKey Nat) (keyAt : Nat → Option PageKey) : Prop :=
  ∀ key i, table[key]? = some i ↔ keyAt i = some key

namespace Points

variable {table : Std.HashMap PageKey Nat} {keyAt keyAt' : Nat → Option PageKey} {key : PageKey}
  {i j : Nat}

theorem inj (h : Points table keyAt) (hi : keyAt i = some key) (hj : keyAt j = some key) : i = j :=
  Option.some.inj (((h key i).2 hi).symm.trans ((h key j).2 hj))

theorem eq_none_iff (h : Points table keyAt) : table[key]? = none ↔ ∀ i, keyAt i ≠ some key := by
  rw [Option.eq_none_iff_forall_ne_some]
  exact forall_congr' fun i => not_congr (h key i)

/-- The table has no position for a key that none of the pages has. -/
theorem eq_none_of_forall_ne {ω : Type} {pages : List (Page ω)} (h : Points table keyAt)
    (hmem : key ∈ pages.map (·.key) ↔ ∃ i, keyAt i = some key)
    (hne : ∀ page ∈ pages, page.key ≠ key) : table[key]? = none := by
  rw [h.eq_none_iff]
  intro i hi
  obtain ⟨page, hpage, hkey⟩ := List.mem_map.1 (hmem.2 ⟨i, hi⟩)
  exact hne page hpage hkey

theorem insert (h : Points table keyAt) (hnew : table[key]? = none) (hfree : keyAt i = none)
    (hat : ∀ j, keyAt' j = if j = i then some key else keyAt j) :
    Points (table.insert key i) keyAt' := by
  intro other j
  rw [Std.HashMap.getElem?_insert, hat]
  by_cases hkey : key = other
  · subst hkey
    by_cases hj : j = i
    · simp [hj]
    · simp [hj, Ne.symm hj, h.eq_none_iff.1 hnew j]
  · by_cases hj : j = i
    · subst hj
      simp [hkey, h other j, hfree]
    · simp [hkey, hj, h other j]

theorem erase (h : Points table keyAt) (hi : keyAt i = some key)
    (hat : ∀ j, keyAt' j = if j = i then none else keyAt j) : Points (table.erase key) keyAt' := by
  intro other j
  rw [Std.HashMap.getElem?_erase, hat]
  by_cases hkey : key = other
  · subst hkey
    by_cases hj : j = i
    · simp [hj]
    · have hother : keyAt j ≠ some key := fun heq => hj (h.inj heq hi)
      simp [hj, hother]
  · by_cases hj : j = i
    · subst hj
      simp [hkey, h other j, hi]
    · simp [hkey, hj, h other j]

theorem move (h : Points table keyAt) (hi : keyAt i = none) (hj : keyAt j = some key)
    (hat : ∀ m, keyAt' m = if m = i then some key else if m = j then none else keyAt m) :
    Points (table.insert key i) keyAt' := by
  have hvacant : (if i = j then none else keyAt i) = none := by
    split
    · rfl
    · exact hi
  have hmoved := (h.erase hj fun _ => rfl).insert Std.HashMap.getElem?_erase_self hvacant hat
  intro other m
  rw [← hmoved other m, Std.HashMap.getElem?_insert, Std.HashMap.getElem?_insert,
    Std.HashMap.getElem?_erase]
  by_cases hkey : key = other <;> simp [hkey]

/-- The table is as large as the number of the keys. -/
theorem size_eq {keys : List PageKey} (h : Points table keyAt) (hkeys : keys.Nodup)
    (hmem : ∀ key, key ∈ keys ↔ ∃ i, keyAt i = some key) : table.size = keys.length := by
  have hperm : table.keys.Perm keys := by
    rw [List.perm_ext_iff_of_nodup (Std.HashMap.nodup_keys) hkeys]
    intro key
    rw [Std.HashMap.mem_keys, hmem, Std.HashMap.mem_iff_isSome_getElem?, Option.isSome_iff_exists]
    exact exists_congr fun i => h key i
  rw [← Std.HashMap.length_keys, hperm.length_eq]

end Points

variable {ω : Type}

/-! ### The clock -/

namespace Clock

variable {c c' : Clock ω} {key : PageKey} {i : Nat}

/-- The key of the page in a slot. -/
def keyAt (c : Clock ω) (i : Nat) : Option PageKey := (c.pageAt? i).map (·.key)

theorem pageAt?_eq_faces (c : Clock ω) (i : Nat) : c.pageAt? i = ((faces c.slots)[i]?).join := by
  rw [faces, List.getElem?_map]
  rcases h : c.slots[i]? with _ | _ | s <;> simp [pageAt?, h]

/-- The reference bits do not matter for the keys. -/
theorem keyAt_congr (h : faces c'.slots = faces c.slots) (i : Nat) : c'.keyAt i = c.keyAt i := by
  rw [keyAt, keyAt, pageAt?_eq_faces, pageAt?_eq_faces, h]

theorem keyAt_set {slot : Option (Slot ω)} (hi : i < c.slots.length)
    (hslots : c'.slots = c.slots.set i slot) (j : Nat) :
    c'.keyAt j = if j = i then slot.map (·.page.key) else c.keyAt j := by
  by_cases hj : j = i
  · subst hj
    cases slot <;> simp [keyAt, pageAt?, hslots, hi]
  · simp [keyAt, pageAt?, hslots, List.getElem?_set_ne (Ne.symm hj), hj]

theorem keyAt_append {slot : Option (Slot ω)} (hslots : c'.slots = c.slots ++ [slot]) (j : Nat) :
    c'.keyAt j = if j = c.slots.length then slot.map (·.page.key) else c.keyAt j := by
  rcases Nat.lt_trichotomy j c.slots.length with hj | rfl | hj
  · simp [keyAt, pageAt?, hslots, List.getElem?_append_left hj, Nat.ne_of_lt hj]
  · cases slot <;> simp [keyAt, pageAt?, hslots]
  · have hnone : (c.slots ++ [slot])[j]? = none := List.getElem?_eq_none (by simp; omega)
    simp [keyAt, pageAt?, hslots, hnone, List.getElem?_eq_none hj.le, Nat.ne_of_gt hj]

theorem keyAt_eq_none (h : c.slots[i]? = none ∨ c.slots[i]? = some none) : c.keyAt i = none := by
  rcases h with h | h <;> simp [keyAt, pageAt?, h]

theorem lt_length_of_keyAt (h : c.keyAt i = some key) : i < c.slots.length := by
  by_contra hi
  rw [keyAt_eq_none (Or.inl (List.getElem?_eq_none (Nat.le_of_not_lt hi)))] at h
  exact nomatch h

theorem mem_keys_iff : key ∈ c.pages.map (·.key) ↔ ∃ i, c.keyAt i = some key := by
  rw [List.mem_map]
  constructor
  · rintro ⟨page, hpage, rfl⟩
    obtain ⟨s, hs, rfl⟩ := mem_pages.1 hpage
    obtain ⟨i, hi⟩ := List.getElem?_of_mem hs
    exact ⟨i, by simp [keyAt, pageAt?, hi]⟩
  · rintro ⟨i, hi⟩
    rcases hslot : c.slots[i]? with _ | _ | s
    · simp [keyAt, pageAt?, hslot] at hi
    · simp [keyAt, pageAt?, hslot] at hi
    · exact ⟨s.page, mem_pages.2 ⟨s, List.mem_of_getElem? hslot, rfl⟩,
        by simpa [keyAt, pageAt?, hslot] using hi⟩

/-- A clock with a table of the slots of its pages. -/
structure Indexed (ω : Type) extends Clock ω where
  positions : Std.HashMap PageKey Nat := ∅

namespace Indexed

variable {c : Indexed ω} {page : Page ω}

/-- The clock without pages and its table. -/
def empty (capacity : Nat) : Indexed ω := { toClock := .empty capacity }

/-- Sets the reference bit of a slot that exists. -/
def touch? (c : Indexed ω) (i : Nat) : Option (Indexed ω) :=
  if i < c.slots.length then some { c with slots := mark c.slots i true } else none

/-- Records a hit of the page with this key. -/
def hit? (c : Indexed ω) (key : PageKey) : Option (Indexed ω) :=
  match c.positions[key]? with
  | some i => c.touch? i
  | none => some c

/-- Puts a page into a slot that exists. -/
def fill? (c : Indexed ω) (page : Page ω) (i : Nat) : Option (Indexed ω) :=
  if i < c.slots.length then
    some { c with
      slots := c.slots.set i (some ⟨page, false⟩)
      positions := c.positions.insert page.key i }
  else none

/-- Puts a page into a slot in place of the page there, which is forgotten. -/
def replace? (c : Indexed ω) (page : Page ω) (i : Nat) :
    Option (Indexed ω × Option (Page ω)) :=
  let victim := c.pageAt? i
  let positions := victim.elim c.positions fun v => c.positions.erase v.key
  (fill? { c with positions } page i).map fun c' => (c', victim)

/-- Adds a page.  The hand has to point at a slot before it is moved. -/
def add? (c : Indexed ω) (page : Page ω) : Option (Indexed ω × Option (Page ω)) :=
  match c.positions[page.key]? with
  | some i => (c.touch? i).map fun c' => (c', none)
  | none =>
    match c.free with
    | i :: free => (fill? { c with free } page i).map fun c' => (c', none)
    | [] =>
      if c.slots.length < c.capacity then
        let c' := { c with
          slots := c.slots ++ [some ⟨page, false⟩]
          positions := c.positions.insert page.key c.slots.length }
        some (c', none)
      else if c.hand < c.slots.length then
        let (swept, i) := sweep (2 * c.slots.length) c.toClock
        replace? { c with toClock := swept } page i
      else none

/-- Vacates the slot of the page with this key. -/
def remove? (c : Indexed ω) (key : PageKey) : Option (Indexed ω) :=
  match c.positions[key]? with
  | some i =>
    if i < c.slots.length then
      some { c with
        slots := c.slots.set i none
        free := i :: c.free
        positions := c.positions.erase key }
    else none
  | none => some c

/-- The table is in step with a clock that was used as a clock. -/
structure InStep (c : Indexed ω) : Prop where
  valid : c.toClock.Valid
  points : Points c.positions c.toClock.keyAt

theorem inStep_empty (capacity : Nat) : (empty capacity : Indexed ω).InStep where
  valid := valid_empty capacity
  points key i := by simp [empty, Clock.empty, keyAt, pageAt?]

/-- The table finds what a search finds. -/
theorem InStep.positions_eq (h : c.InStep) (key : PageKey) :
    c.positions[key]? = c.toClock.position? key := by
  cases hposition : c.toClock.position? key with
  | some i =>
    obtain ⟨s, hs, rfl⟩ := position?_eq_some hposition
    exact (h.points _ i).2 (by simp [keyAt, pageAt?, hs])
  | none =>
    exact h.points.eq_none_of_forall_ne mem_keys_iff (position?_eq_none.1 hposition)

theorem InStep.lt_length (h : c.InStep) (hi : c.positions[key]? = some i) : i < c.slots.length :=
  lt_length_of_keyAt ((h.points key i).1 hi)

theorem InStep.size_eq (h : c.InStep) : c.positions.size = c.pages.length := by
  rw [h.points.size_eq h.valid.keys fun _ => mem_keys_iff, List.length_map]

theorem InStep.hit?_spec (h : c.InStep) (key : PageKey) :
    ∃ c', c.hit? key = some c' ∧ c'.toClock = c.toClock.hit key ∧ c'.InStep := by
  cases hi : c.positions[key]? with
  | none =>
    have hhit : c.toClock.hit key = c.toClock := by
      rw [Clock.hit, ← h.positions_eq, hi]
    exact ⟨c, by rw [hit?, hi], hhit.symm, h⟩
  | some i =>
    have hhit : c.toClock.hit key = { c.toClock with slots := mark c.slots i true } := by
      rw [Clock.hit, ← h.positions_eq, hi]
    have hlt := h.lt_length hi
    refine ⟨{ c with slots := mark c.slots i true }, ?_, hhit.symm, hhit ▸ h.valid.hit key, ?_⟩
    · simp only [hit?, hi, touch?, if_pos hlt]
    · intro other j
      rw [h.points other j]
      exact iff_of_eq (congrArg (· = some other) (keyAt_congr (faces_mark c.slots i true) j).symm)

/-- Reference bits and the hand do not matter for the table. -/
theorem points_congr {positions : Std.HashMap PageKey Nat} {d d' : Clock ω}
    (h : Points positions d.keyAt) (hfaces : faces d'.slots = faces d.slots) :
    Points positions d'.keyAt := fun other j => by rw [keyAt_congr hfaces, h other j]

theorem points_fill {positions : Std.HashMap PageKey Nat} {d d' : Clock ω}
    (h : Points positions d.keyAt) (hnew : positions[page.key]? = none)
    (hvacant : d.slots[i]? = some none)
    (hslots : d'.slots = d.slots.set i (some ⟨page, false⟩)) :
    Points (positions.insert page.key i) d'.keyAt :=
  h.insert hnew (keyAt_eq_none (Or.inr hvacant))
    (keyAt_set (List.getElem?_eq_some_iff.1 hvacant).1 hslots)

theorem points_grow {positions : Std.HashMap PageKey Nat} {d d' : Clock ω}
    (h : Points positions d.keyAt) (hnew : positions[page.key]? = none)
    (hslots : d'.slots = d.slots ++ [some ⟨page, false⟩]) :
    Points (positions.insert page.key d.slots.length) d'.keyAt :=
  h.insert hnew (keyAt_eq_none (Or.inl (List.getElem?_eq_none le_rfl))) (keyAt_append hslots)

theorem points_replace {positions : Std.HashMap PageKey Nat} {d d' : Clock ω} {victim : Page ω}
    (h : Points positions d.keyAt) (hnew : positions[page.key]? = none)
    (hi : d.pageAt? i = some victim) (hslots : d'.slots = d.slots.set i (some ⟨page, false⟩)) :
    Points ((positions.erase victim.key).insert page.key i) d'.keyAt := by
  have hvictim : d.keyAt i = some victim.key := by rw [keyAt, hi, Option.map_some]
  have hgone : (positions.erase victim.key)[page.key]? = none := by
    rw [Std.HashMap.getElem?_erase, hnew, ite_self]
  refine (h.erase hvictim fun _ => rfl).insert hgone (if_pos rfl) fun j => ?_
  rw [keyAt_set (lt_length_of_keyAt hvictim) hslots]
  by_cases hj : j = i <;> simp [hj]

/-- In a full clock the hand starts at a slot and comes to rest at one with a page, and no page
moves on the way. -/
theorem InStep.exists_victim (h : c.InStep) (hfree : c.free = [])
    (hroom : ¬ c.slots.length < c.capacity) :
    ∃ swept i s, sweep (2 * c.slots.length) c.toClock = (swept, i) ∧ c.hand < c.slots.length ∧
      i < swept.slots.length ∧ faces swept.slots = faces c.slots ∧
      swept.slots[i]? = some (some s) := by
  have hlt : c.hand < c.slots.length := by
    have hpos := h.valid.pos
    have hhand := h.valid.hand_lt
    omega
  obtain ⟨hi, hfaces, hcapacity, hkept, hhand⟩ := sweep_spec (2 * c.slots.length) hlt
  generalize sweep (2 * c.slots.length) c.toClock = out at hi hfaces hcapacity hkept hhand ⊢
  obtain ⟨swept, i⟩ := out
  dsimp only at hi hfaces hcapacity hkept hhand
  have hlength : swept.slots.length = c.slots.length := by
    simpa [faces] using congrArg List.length hfaces
  have hswept : swept.Valid := h.valid.congr hfaces hcapacity hkept (by omega)
  have hi' : i < swept.slots.length := hi.trans_eq hlength.symm
  obtain ⟨s, hs⟩ := hswept.exists_slot (hkept.trans hfree) hi'
  exact ⟨swept, i, s, rfl, hlt, hi', hfaces, hs⟩

/-- Adding a page uses positions that exist, and does what the clock does that searches. -/
theorem InStep.add?_spec (h : c.InStep) (page : Page ω) :
    ∃ c', c.add? page = some (c', (c.toClock.add page).2) ∧
      c'.toClock = (c.toClock.add page).1 ∧ c'.InStep := by
  cases hposition : c.positions[page.key]? with
  | some i =>
    have hadd : c.toClock.add page = (c.toClock.hit page.key, none) := by
      rw [Clock.add, ← h.positions_eq, hposition]
    obtain ⟨c', hhit, hclock, hstep⟩ := h.hit?_spec page.key
    rw [hit?, hposition] at hhit
    refine ⟨c', ?_, by rw [hadd, hclock], hstep⟩
    simp only [add?, hposition, hadd]
    rw [show c.touch? i = some c' from hhit, Option.map_some]
  | none =>
    have hadd : c.toClock.add page = c.toClock.place page := by
      rw [Clock.add, ← h.positions_eq, hposition]
    have hnew : ∀ x ∈ c.toClock.pages, x.key ≠ page.key :=
      position?_eq_none.1 ((h.positions_eq _).symm.trans hposition)
    obtain ⟨hvalid, -⟩ := place_spec h.valid hnew
    rw [hadd]
    -- a new page takes a vacant slot, a slot of its own, or that of the victim
    cases hfree : c.free with
    | cons i free =>
      have hvacant : c.slots[i]? = some none :=
        (h.valid.mem_free i).1 (hfree ▸ List.mem_cons_self)
      have hplace : c.toClock.place page =
          ({ c.toClock with slots := c.slots.set i (some ⟨page, false⟩), free }, none) := by
        simp only [place, hfree]
      rw [hplace] at hvalid ⊢
      refine ⟨⟨_, c.positions.insert page.key i⟩, ?_, rfl, hvalid,
        points_fill h.points hposition hvacant rfl⟩
      have hlt : i < c.slots.length := (List.getElem?_eq_some_iff.1 hvacant).1
      simp only [add?, hposition, hfree, fill?, if_pos hlt, Option.map_some]
    | nil =>
      by_cases hroom : c.slots.length < c.capacity
      · have hplace : c.toClock.place page =
            ({ c.toClock with slots := c.slots ++ [some ⟨page, false⟩] }, none) := by
          simp only [place, hfree, if_pos hroom]
        rw [hplace] at hvalid ⊢
        refine ⟨⟨_, c.positions.insert page.key c.slots.length⟩, ?_, rfl, hvalid,
          points_grow h.points hposition rfl⟩
        simp only [add?, hposition, hfree, if_pos hroom]
      · obtain ⟨swept, i, s, hsweep, hlt, hi, hfaces, hs⟩ := h.exists_victim hfree hroom
        have hvictim : swept.pageAt? i = some s.page := by simp [pageAt?, hs]
        have hplace : c.toClock.place page =
            ({ swept with slots := swept.slots.set i (some ⟨page, false⟩) }, some s.page) := by
          simp only [place, hfree, if_neg hroom, hsweep, hvictim]
        rw [hplace] at hvalid ⊢
        refine ⟨⟨_, (c.positions.erase s.page.key).insert page.key i⟩, ?_, rfl, hvalid,
          points_replace (points_congr h.points hfaces) hposition hvictim rfl⟩
        simp only [add?, hposition, hfree, if_neg hroom, if_pos hlt, hsweep, replace?, hvictim,
          Option.elim_some, fill?, if_pos hi, Option.map_some]

theorem InStep.remove?_spec (h : c.InStep) (key : PageKey) :
    ∃ c', c.remove? key = some c' ∧ c'.toClock = c.toClock.remove key ∧ c'.InStep := by
  obtain ⟨hvalid, -⟩ := perm_pages_remove h.valid key
  cases hi : c.positions[key]? with
  | none =>
    have hremove : c.toClock.remove key = c.toClock := by
      rw [Clock.remove, ← h.positions_eq, hi]
    exact ⟨c, by simp only [remove?, hi], hremove.symm, h⟩
  | some i =>
    have hremove : c.toClock.remove key =
        { c.toClock with slots := c.slots.set i none, free := i :: c.free } := by
      rw [Clock.remove, ← h.positions_eq, hi]
    have hlt := h.lt_length hi
    rw [hremove] at hvalid ⊢
    refine ⟨⟨_, c.positions.erase key⟩, by simp only [remove?, hi, if_pos hlt], rfl, hvalid,
      h.points.erase ((h.points key i).1 hi) fun j => ?_⟩
    exact keyAt_set hlt (show _ = c.slots.set i none from rfl) j

end Indexed

end Clock

/-! ### The lottery -/

namespace Lottery

variable {r : Lottery ω} {key : PageKey} {i : Nat}

/-- The key of the page at a position. -/
def keyAt (r : Lottery ω) (i : Nat) : Option PageKey := r.pages[i]?.map (·.key)

theorem mem_keys_iff : key ∈ r.pages.map (·.key) ↔ ∃ i, r.keyAt i = some key := by
  rw [List.mem_map]
  constructor
  · rintro ⟨page, hpage, rfl⟩
    obtain ⟨i, hi⟩ := List.getElem?_of_mem hpage
    exact ⟨i, by rw [keyAt, hi, Option.map_some]⟩
  · rintro ⟨i, hi⟩
    obtain ⟨page, hpage, rfl⟩ := Option.map_eq_some_iff.1 hi
    exact ⟨page, List.mem_of_getElem? hpage, rfl⟩

/-- A row with a table of the positions of its pages. -/
structure Indexed (ω : Type) extends Lottery ω where
  positions : Std.HashMap PageKey Nat := ∅

namespace Indexed

variable {r : Indexed ω} {page : Page ω}

/-- The row without pages and its table. -/
def empty (capacity : Nat) (seed : UInt64) : Indexed ω := { toLottery := .empty capacity seed }

/-- Takes out the page at a position that exists, and tells the table where the last page of the row
went. -/
def takeOut? (r : Indexed ω) (i : Nat) : Option (Indexed ω × Page ω) :=
  match r.pages[i]? with
  | none => none
  | some gone =>
    let pages := takeOut r.pages i
    let positions := r.positions.erase gone.key
    let positions := pages[i]?.elim positions fun moved => positions.insert moved.key i
    some ({ r with pages, positions }, gone)

/-- Puts a page at the end of the row. -/
def append (r : Indexed ω) (page : Page ω) : Indexed ω :=
  { r with
    pages := r.pages ++ [page]
    positions := r.positions.insert page.key r.pages.length }

/-- Takes out the page at a position that is drawn, if there is any to draw. -/
def drawOut? (r : Indexed ω) : Option (Indexed ω × Page ω) :=
  if r.pages.length = 0 then none
  else
    takeOut? { r with generator := (Generator.below r.pages.length r.generator).2 }
      (Generator.below r.pages.length r.generator).1

/-- Adds a page. -/
def add? (r : Indexed ω) (page : Page ω) : Option (Indexed ω × Option (Page ω)) :=
  match r.positions[page.key]? with
  | some _ => some (r, none)
  | none =>
    if r.pages.length < r.capacity then some (r.append page, none)
    else r.drawOut?.map fun out => (out.1.append page, some out.2)

/-- Takes the page with this key out of the row. -/
def remove? (r : Indexed ω) (key : PageKey) : Option (Indexed ω) :=
  match r.positions[key]? with
  | some i => (r.takeOut? i).map (·.1)
  | none => some r

/-- The table is in step with a row that was used as a row. -/
structure InStep (r : Indexed ω) : Prop where
  valid : r.toLottery.Valid
  points : Points r.positions r.toLottery.keyAt

theorem inStep_empty (capacity : Nat) (seed : UInt64) :
    (empty capacity seed : Indexed ω).InStep where
  valid := valid_empty capacity seed
  points key i := by simp [empty, Lottery.empty, keyAt]

theorem InStep.positions_eq (h : r.InStep) (key : PageKey) :
    r.positions[key]? = r.toLottery.position? key := by
  cases hposition : r.toLottery.position? key with
  | some i =>
    obtain ⟨hi, hkey, -⟩ := List.findIdx?_eq_some_iff_getElem.1 hposition
    refine (h.points key i).2 ?_
    rw [keyAt, List.getElem?_eq_getElem hi, Option.map_some]
    simpa using hkey
  | none =>
    exact h.points.eq_none_of_forall_ne mem_keys_iff (position?_eq_none.1 hposition)

/-- The last element stands where one was taken out. -/
theorem getElem?_takeOut {α : Type} {xs : List α} (hi : i < xs.length) (j : Nat) :
    (takeOut xs i)[j]? = if j = xs.length - 1 then none
      else if j = i then xs[xs.length - 1]? else xs[j]? := by
  obtain ⟨ys, last, rfl⟩ : ∃ ys last, xs = ys ++ [last] :=
    ⟨_, _, (List.dropLast_append_getLast (List.ne_nil_of_length_pos (by omega))).symm⟩
  have hlast : (ys ++ [last]).getLast? = some last := by simp
  have hend : (ys ++ [last])[ys.length]? = some last := by simp
  simp only [takeOut, hlast, List.getElem?_dropLast, List.length_set, List.length_append,
    List.length_singleton, Nat.add_sub_cancel, hend, List.getElem?_set]
  rcases Nat.lt_trichotomy j ys.length with hj | rfl | hj
  · by_cases hij : i = j
    · simp [hj, hij, Nat.ne_of_lt hj]
      omega
    · simp [hj, hij, Ne.symm hij, Nat.ne_of_lt hj]
  · simp
  · have hnone : (ys ++ [last])[j]? = none := List.getElem?_eq_none (by simp; omega)
    have hij : j ≠ i := by
      simp at hi
      omega
    simp [Nat.not_lt_of_gt hj, Nat.ne_of_gt hj, hij, hnone]

/-- Taking a page out keeps the table in step. -/
theorem takeOut?_spec (h : Points r.positions r.toLottery.keyAt) (hi : i < r.pages.length) :
    ∃ positions, r.takeOut? i =
        some ({ r with pages := takeOut r.pages i, positions := positions }, r.pages[i]) ∧
      Points positions (Lottery.keyAt { r.toLottery with pages := takeOut r.pages i }) := by
  have hgone : r.toLottery.keyAt i = some r.pages[i].key := by
    rw [keyAt, List.getElem?_eq_getElem hi, Option.map_some]
  have hmoved := getElem?_takeOut hi i
  rw [if_pos rfl] at hmoved
  simp only [takeOut?, List.getElem?_eq_getElem hi]
  refine ⟨_, rfl, ?_⟩
  by_cases hlast : i = r.pages.length - 1
  · -- The last page of the row leaves, and no other page moves.
    rw [if_pos hlast] at hmoved
    rw [hmoved, Option.elim_none]
    refine h.erase hgone fun j => ?_
    simp only [keyAt, getElem?_takeOut hi]
    by_cases hj : j = i
    · simp [hj, ← hlast]
    · simp [hj, ← hlast]
  · have hlt : r.pages.length - 1 < r.pages.length := by omega
    rw [if_neg hlast, List.getElem?_eq_getElem hlt] at hmoved
    rw [hmoved, Option.elim_some]
    have hother : r.toLottery.keyAt (r.pages.length - 1) =
        some r.pages[r.pages.length - 1].key := by
      rw [keyAt, List.getElem?_eq_getElem hlt, Option.map_some]
    refine (h.erase hgone fun _ => rfl).move (if_pos rfl)
      (by rw [if_neg (Ne.symm hlast), hother]) fun j => ?_
    simp only [keyAt, getElem?_takeOut hi]
    by_cases hj : j = i
    · simp [hj, hlast, List.getElem?_eq_getElem hlt]
    · by_cases hend : j = r.pages.length - 1 <;> simp [hj, hend, Ne.symm hlast]

/-- Putting a page at the end keeps the table in step. -/
theorem points_append (h : Points r.positions r.toLottery.keyAt)
    (hnew : r.positions[page.key]? = none) :
    Points (r.append page).positions (r.append page).toLottery.keyAt := by
  refine h.insert hnew (by simp [keyAt]) fun j => ?_
  simp only [keyAt, append]
  rcases Nat.lt_trichotomy j r.pages.length with hj | rfl | hj
  · simp [List.getElem?_append_left hj, Nat.ne_of_lt hj]
  · simp
  · have hnone : (r.pages ++ [page])[j]? = none := List.getElem?_eq_none (by simp; omega)
    simp [hnone, List.getElem?_eq_none hj.le, Nat.ne_of_gt hj]

/-- Wherever a new page goes, the table stays in step. -/
theorem InStep.replace_spec (h : r.InStep) (hnew : r.positions[page.key]? = none)
    (hi : i < r.pages.length) : ∃ taken, r.takeOut? i = some (taken, r.pages[i]) ∧
      (taken.append page).toLottery = (r.toLottery.replace page i).1 ∧
      (taken.append page).InStep := by
  have hkeys : ∀ x ∈ r.toLottery.pages, x.key ≠ page.key :=
    position?_eq_none.1 ((h.positions_eq _).symm.trans hnew)
  obtain ⟨positions, htake, hpoints⟩ := takeOut?_spec h.points hi
  have hgone : positions[page.key]? = none :=
    hpoints.eq_none_of_forall_ne mem_keys_iff fun x hx =>
      hkeys x ((perm_takeOut hi).mem_iff.1 (List.mem_cons_of_mem _ hx))
  exact ⟨_, htake, rfl, (Lottery.replace_spec h.valid hkeys hi).1, points_append hpoints hgone⟩

theorem InStep.add?_spec (h : r.InStep) (page : Page ω) :
    ∃ r', r.add? page = some (r', (r.toLottery.add page).2) ∧
      r'.toLottery = (r.toLottery.add page).1 ∧ r'.InStep := by
  cases hposition : r.positions[page.key]? with
  | some i =>
    have hadd : r.toLottery.add page = (r.toLottery, none) := by
      rw [Lottery.add, ← h.positions_eq, hposition]
    exact ⟨r, by simp only [add?, hposition, hadd], by rw [hadd], h⟩
  | none =>
    have hadd : r.toLottery.add page = r.toLottery.place page := by
      rw [Lottery.add, ← h.positions_eq, hposition]
    have hnew : ∀ x ∈ r.toLottery.pages, x.key ≠ page.key :=
      position?_eq_none.1 ((h.positions_eq _).symm.trans hposition)
    obtain ⟨hvalid, -⟩ := place_spec h.valid hnew
    rw [hadd]
    by_cases hroom : r.pages.length < r.capacity
    · have hplace : r.toLottery.place page =
          ({ r.toLottery with pages := r.pages ++ [page] }, none) := by
        rw [place, if_pos hroom]
      rw [hplace] at hvalid ⊢
      exact ⟨r.append page, by simp only [add?, hposition, if_pos hroom], rfl, hvalid,
        points_append h.points hposition⟩
    · obtain ⟨i, generator, hdraw, hi, hplace⟩ := exists_draw h.valid hroom page
      have hdrawn : InStep { r with generator } :=
        ⟨⟨h.valid.pos, h.valid.length_le, h.valid.keys⟩, h.points⟩
      obtain ⟨taken, htake, hlottery, hstep⟩ := hdrawn.replace_spec hposition hi
      have hout : r.drawOut? = some (taken, r.pages[i]) := by
        rw [drawOut?, if_neg (Nat.ne_of_gt (Nat.zero_lt_of_lt hi)), hdraw]
        exact htake
      refine ⟨taken.append page, ?_, by rw [hplace, hlottery], hstep⟩
      rw [hplace, Lottery.replace, List.getElem?_eq_getElem hi]
      simp only [add?, hposition, if_neg hroom, hout, Option.map_some]

theorem InStep.remove?_spec (h : r.InStep) (key : PageKey) :
    ∃ r', r.remove? key = some r' ∧ r'.toLottery = r.toLottery.remove key ∧ r'.InStep := by
  obtain ⟨hvalid, -⟩ := perm_pages_remove h.valid key
  cases hi : r.positions[key]? with
  | none =>
    have hremove : r.toLottery.remove key = r.toLottery := by
      rw [Lottery.remove, ← h.positions_eq, hi]
    exact ⟨r, by simp only [remove?, hi], hremove.symm, h⟩
  | some i =>
    have hremove : r.toLottery.remove key = { r.toLottery with pages := takeOut r.pages i } := by
      rw [Lottery.remove, ← h.positions_eq, hi]
    obtain ⟨page, hpage, -⟩ := Option.map_eq_some_iff.1 ((h.points key i).1 hi)
    obtain ⟨hlt, -⟩ := List.getElem?_eq_some_iff.1 hpage
    obtain ⟨positions, htake, hpoints⟩ := takeOut?_spec h.points hlt
    rw [hremove] at hvalid ⊢
    exact ⟨⟨_, positions⟩, by simp only [remove?, hi, htake, Option.map_some], rfl, hvalid, hpoints⟩

end Indexed

end Lottery

/-! ### Both policies -/

namespace Policy

/-- What a policy is told. -/
inductive Call (ω : Type) where
  | add (page : Page ω)
  | hit (key : PageKey)
  | remove (key : PageKey)

/-- The policy after a call and the page that has to leave for it. -/
def answer (p : Policy ω) : Call ω → Policy ω × Option (Page ω)
  | .add page => p.add page
  | .hit key => (p.hit key, none)
  | .remove key => (p.remove key, none)

/-- A policy that remembers positions. -/
inductive Indexed (ω : Type) where
  | clock (c : Clock.Indexed ω)
  | lottery (r : Lottery.Indexed ω)

namespace Indexed

variable {x : Indexed ω}

/-- The policy without its table. -/
def forget : Indexed ω → Policy ω
  | clock c => .clock c.toClock
  | lottery r => .lottery r.toLottery

/-- The number of pages: a clock counts the table, a lottery the row. -/
def size : Indexed ω → Nat
  | clock c => c.positions.size
  | lottery r => r.pages.length

/-- The policy after a call and the page that has to leave for it, if every slot or position that is
used exists. -/
def answer? : Indexed ω → Call ω → Option (Indexed ω × Option (Page ω))
  | clock c, .add page => (c.add? page).map fun out => (clock out.1, out.2)
  | clock c, .hit key => (c.hit? key).map fun c' => (clock c', none)
  | clock c, .remove key => (c.remove? key).map fun c' => (clock c', none)
  | lottery r, .add page => (r.add? page).map fun out => (lottery out.1, out.2)
  | lottery r, .hit _ => some (lottery r, none)
  | lottery r, .remove key => (r.remove? key).map fun r' => (lottery r', none)

/-- The table is in step with a policy that was used as one. -/
def InStep : Indexed ω → Prop
  | clock c => c.InStep
  | lottery r => r.InStep

theorem InStep.size_eq (h : x.InStep) : x.size = x.forget.size := by
  cases x with
  | clock c => exact Clock.Indexed.InStep.size_eq h
  | lottery r => rfl

/-- A policy that remembers positions never misses one, and answers like the one that searches. -/
theorem InStep.answer?_spec (h : x.InStep) (call : Call ω) :
    ∃ x', x.answer? call = some (x', (x.forget.answer call).2) ∧
      x'.forget = (x.forget.answer call).1 ∧ x'.InStep := by
  cases x with
  | clock c =>
    cases call with
    | add page =>
      obtain ⟨c', hadd, hforget, hstep⟩ := Clock.Indexed.InStep.add?_spec h page
      exact ⟨clock c', by rw [answer?, hadd]; rfl, congrArg Policy.clock hforget, hstep⟩
    | hit key =>
      obtain ⟨c', hhit, hforget, hstep⟩ := Clock.Indexed.InStep.hit?_spec h key
      exact ⟨clock c', by rw [answer?, hhit]; rfl, congrArg Policy.clock hforget, hstep⟩
    | remove key =>
      obtain ⟨c', hremove, hforget, hstep⟩ := Clock.Indexed.InStep.remove?_spec h key
      exact ⟨clock c', by rw [answer?, hremove]; rfl, congrArg Policy.clock hforget, hstep⟩
  | lottery r =>
    cases call with
    | add page =>
      obtain ⟨r', hadd, hforget, hstep⟩ := Lottery.Indexed.InStep.add?_spec h page
      exact ⟨lottery r', by rw [answer?, hadd]; rfl, congrArg Policy.lottery hforget, hstep⟩
    | hit key => exact ⟨lottery r, rfl, rfl, h⟩
    | remove key =>
      obtain ⟨r', hremove, hforget, hstep⟩ := Lottery.Indexed.InStep.remove?_spec h key
      exact ⟨lottery r', by rw [answer?, hremove]; rfl, congrArg Policy.lottery hforget, hstep⟩

end Indexed

end Policy

end PagedMap
