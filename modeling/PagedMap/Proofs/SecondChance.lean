import Mathlib
import PagedMap.Proofs.Contract

/-!
# The second chance

A full clock has a page in each slot.  To make room for a new page the hand goes round from where it
is (`Clock.circle`), passes over the pages whose reference bit is set (`Clock.passed`), and stops at
the first one whose bit is clear, or where it started from if there is none (`Clock.victimSlot`).
It comes there within two rounds, so that the search never ends without a victim (`Clock.search?`).

The bit of a page is set if and only if the page was used since it came in and since the hand passed
over it last (`Clock.Course.Told`).  So a page that was used since then does not leave as long as
there is one that was not.

Main statement: `Clock.Course.second_chance_run`.
-/

namespace PagedMap

variable {ω : Type}

namespace Clock

/-! ### Around the clock -/

/-- The slot at which the hand points after so many moves. -/
def ahead (c : Clock ω) (moves : Nat) : Nat := (c.hand + moves) % c.slots.length

/-- Whether there is a page in a slot and its reference bit is set. -/
def isMarked (c : Clock ω) (i : Nat) : Bool := (c.slots[i]?).any fun slot => slot.any (·.referenced)

/-- All slots in circular order, the one under the hand first. -/
def circle (c : Clock ω) : List Nat := (List.range c.slots.length).map c.ahead

/-- The slots before the first one on the circle whose bit is clear. -/
def passed (c : Clock ω) : List Nat := c.circle.takeWhile c.isMarked

/-- The first slot on the circle whose bit is clear, or the one under the hand if all bits are
set. -/
def victimSlot (c : Clock ω) : Nat := (c.circle.find? fun i => !c.isMarked i).getD c.hand

/-- The search of `sweep` without its default: nothing is found if the hand stops at no page. -/
def search? : (steps : Nat) → Clock ω → Option (Clock ω × Nat)
  | 0, _ => none
  | steps + 1, c =>
    let moved := { c with hand := (c.hand + 1) % c.slots.length }
    match c.slots[c.hand]? with
    | some (some s) =>
      if s.referenced then search? steps { moved with slots := mark c.slots c.hand false }
      else some (moved, c.hand)
    | _ => search? steps moved

/-- Clears the reference bits of some slots. -/
def clear (slots : List (Option (Slot ω))) (is : List Nat) : List (Option (Slot ω)) :=
  is.foldl (fun slots i => mark slots i false) slots

variable {c : Clock ω} {page : Page ω} {key : PageKey} {i j steps : Nat} {s : Slot ω}

theorem sweep_eq_of_search? {out : Clock ω × Nat} (h : search? steps c = some out) :
    sweep steps c = out := by
  induction steps generalizing c with
  | zero => simp [search?] at h
  | succ steps ih =>
    rw [search?] at h
    rw [sweep]
    split
    · rename_i s hslot
      simp only [hslot] at h
      split
      · rename_i hbit
        rw [if_pos hbit] at h
        exact ih h
      · rename_i hbit
        rw [if_neg hbit] at h
        exact Option.some.inj h
    · rename_i hslot
      split at h
      · rename_i s hs
        exact absurd hs (hslot s)
      · exact ih h

theorem isMarked_of_slot (hs : c.slots[i]? = some (some s)) : c.isMarked i = s.referenced := by
  simp [isMarked, hs]

theorem isMarked_eq_true :
    c.isMarked i = true ↔ ∃ s, c.slots[i]? = some (some s) ∧ s.referenced = true := by
  rcases h : c.slots[i]? with _ | _ | s <;> simp [isMarked, h]

/-- The slots that are cleared keep their pages, and the others stay as they are. -/
theorem getElem?_clear (slots : List (Option (Slot ω))) (is : List Nat) (i : Nat) :
    (clear slots is)[i]? = (slots[i]?).map fun slot => slot.map fun s =>
      if i ∈ is then { s with referenced := false } else s := by
  induction is generalizing slots with
  | nil => simp [clear]
  | cons k is ih =>
    have hcons : clear slots (k :: is) = clear (mark slots k false) is := rfl
    rw [hcons, ih, mark, List.getElem?_modify]
    by_cases hk : i = k
    · subst hk
      rcases slots[i]? with _ | _ | s <;> simp
    · rcases slots[i]? with _ | _ | s <;> simp [hk, Ne.symm hk]

theorem length_clear (slots : List (Option (Slot ω))) (is : List Nat) :
    (clear slots is).length = slots.length := by
  induction is generalizing slots with
  | nil => rfl
  | cons k is ih => exact (ih _).trans (length_mark slots k false)

theorem length_circle (c : Clock ω) : c.circle.length = c.slots.length := by simp [circle]

theorem getElem?_circle (hi : i < c.slots.length) : c.circle[i]? = some (c.ahead i) := by
  simp [circle, hi]

/-- No slot is twice on the circle. -/
theorem nodup_circle (c : Clock ω) : c.circle.Nodup := by
  refine List.Nodup.map_on (fun a ha b hb heq => ?_) List.nodup_range
  have hmod : a % c.slots.length = b % c.slots.length := Nat.ModEq.add_left_cancel' c.hand heq
  rwa [Nat.mod_eq_of_lt (List.mem_range.1 ha), Nat.mod_eq_of_lt (List.mem_range.1 hb)] at hmod

/-- Every slot is on the circle. -/
theorem mem_circle (hhand : c.hand < c.slots.length) : i ∈ c.circle ↔ i < c.slots.length := by
  simp only [circle, List.mem_map, List.mem_range]
  constructor
  · rintro ⟨d, -, rfl⟩
    exact Nat.mod_lt _ (by omega)
  · intro hi
    refine ⟨(i + c.slots.length - c.hand) % c.slots.length, Nat.mod_lt _ (by omega), ?_⟩
    have hsum : c.hand + (i + c.slots.length - c.hand) = i + c.slots.length := by omega
    rw [ahead, Nat.add_mod_mod, hsum, Nat.add_mod_right, Nat.mod_eq_of_lt hi]

/-- The clock after the hand passed over the first slots on the circle. -/
def passing (c : Clock ω) (is : List Nat) : Clock ω :=
  { c with hand := c.ahead is.length, slots := clear c.slots is }

/-- The search goes on behind slots whose bits are set. -/
theorem search?_passing (hhand : c.hand < c.slots.length) {is : List Nat} (his : is <+: c.circle)
    (hmarked : ∀ i ∈ is, c.isMarked i = true) (steps : Nat) :
    search? (is.length + steps) c = search? steps (c.passing is) := by
  induction is using List.reverseRecOn generalizing steps with
  | nil =>
    have hsame : c.passing [] = c := by
      simp [passing, clear, ahead, Nat.mod_eq_of_lt hhand]
    rw [hsame, List.length_nil, Nat.zero_add]
  | append_singleton is i ih =>
    have hfirst : is <+: c.circle := (List.prefix_append is [i]).trans his
    have hlt : is.length < c.slots.length := by
      have hle := his.length_le
      rw [length_circle, List.length_append, List.length_singleton] at hle
      omega
    have hi : i = c.ahead is.length := by
      have hget := (List.prefix_iff_getElem?.1 his) is.length (by simp)
      rw [getElem?_circle hlt] at hget
      simpa using hget.symm
    have hnot : i ∉ is := by
      have hnodup := (his.sublist.nodup (nodup_circle c))
      rw [List.nodup_append] at hnodup
      exact fun hmem => hnodup.2.2 i hmem i (List.mem_singleton_self i) rfl
    obtain ⟨s, hs, hbit⟩ := isMarked_eq_true.1 (hmarked i (by simp))
    have hslot : (c.passing is).slots[(c.passing is).hand]? = some (some s) := by
      have hclear := getElem?_clear c.slots is i
      simp only [hs, hnot, if_false, Option.map_some] at hclear
      rwa [hi] at hclear
    have hstep : search? (steps + 1) (c.passing is) = search? steps (c.passing (is ++ [i])) := by
      have hnext : ((c.passing is).hand + 1) % (c.passing is).slots.length =
          c.ahead (is ++ [i]).length := by
        simp [passing, ahead, length_clear, Nat.add_assoc]
      have hcleared : mark (c.passing is).slots (c.passing is).hand false =
          clear c.slots (is ++ [i]) := by
        simp only [clear, List.foldl_append, List.foldl_cons, List.foldl_nil]
        rw [hi]
        rfl
      rw [search?]
      simp only [hslot, hbit, if_true, hnext, hcleared]
      rfl
    rw [← hstep, ← ih hfirst fun k hk => hmarked k (List.mem_append_left _ hk), List.length_append,
      List.length_singleton]
    congr 1
    omega

/-- The search stops at a slot whose bit is clear. -/
theorem search?_stop (hs : c.slots[c.hand]? = some (some s)) (hbit : s.referenced = false) :
    search? (steps + 1) c = some ({ c with hand := (c.hand + 1) % c.slots.length }, c.hand) := by
  rw [search?]
  simp [hs, hbit]

/-- The slots passed are those before the first slot whose bit is clear. -/
theorem circle_eq_append {v : Nat} (h : (c.circle.find? fun i => !c.isMarked i) = some v) :
    c.victimSlot = v ∧ c.isMarked v = false ∧ ∃ back, c.circle = c.passed ++ v :: back := by
  obtain ⟨hbit, front, back, hcircle, hfront⟩ := List.find?_eq_some_iff_append.1 h
  have hv : c.isMarked v = false := by simpa using hbit
  have hpassed : c.passed = front := by
    rw [passed, hcircle, List.takeWhile_append_of_pos fun i hi => by simpa using hfront i hi,
      List.takeWhile_cons_of_neg (by simp [hv]), List.append_nil]
  exact ⟨by rw [victimSlot, h, Option.getD_some], hv, back, by rw [hpassed, hcircle]⟩

/-- If all bits are set, the hand passes over all slots. -/
theorem passed_eq_circle (h : (c.circle.find? fun i => !c.isMarked i) = none) :
    c.victimSlot = c.hand ∧ c.passed = c.circle := by
  refine ⟨by rw [victimSlot, h, Option.getD_none], ?_⟩
  rw [passed, List.takeWhile_eq_self_iff]
  simpa using h

/-- Where the search ends in a clock with a page in each slot. -/
theorem search?_spec (hoccupied : ∀ i < c.slots.length, ∃ s, c.slots[i]? = some (some s))
    (hhand : c.hand < c.slots.length) : c.victimSlot < c.slots.length ∧
      search? (2 * c.slots.length) c =
        some ({ c.passing c.passed with hand := (c.victimSlot + 1) % c.slots.length },
          c.victimSlot) := by
  -- after the marked slots before it, the search comes to a slot whose bit is clear by then
  have hstops {v : Nat} (hinit : c.passed <+: c.circle) (hv : v = c.ahead c.passed.length)
      (hclear : v ∈ c.passed ∨ c.isMarked v = false) : v < c.slots.length ∧
        search? (2 * c.slots.length) c =
          some ({ c.passing c.passed with hand := (v + 1) % c.slots.length }, v) := by
    have hlt : v < c.slots.length := hv ▸ Nat.mod_lt _ (by omega)
    have hle := hinit.length_le
    rw [length_circle] at hle
    obtain ⟨s, hs⟩ := hoccupied v hlt
    have hslot := getElem?_clear c.slots c.passed v
    rw [hs, Option.map_some, Option.map_some] at hslot
    have hbit :
        (if v ∈ c.passed then { s with referenced := false } else s).referenced = false := by
      split
      · rfl
      · rename_i hnot
        rw [← isMarked_of_slot hs]
        exact hclear.resolve_left hnot
    have hpassed : ∀ i ∈ c.passed, c.isMarked i = true := fun i hi => List.mem_takeWhile_imp hi
    have hsteps : 2 * c.slots.length =
        c.passed.length + (2 * c.slots.length - c.passed.length - 1 + 1) := by omega
    have hend : (c.passing c.passed).hand = v := hv.symm
    rw [hsteps, search?_passing hhand hinit hpassed, search?_stop (hend.symm ▸ hslot) hbit, hend]
    refine ⟨hlt, ?_⟩
    simp [passing, length_clear]
  cases hfind : c.circle.find? fun i => !c.isMarked i with
  | some v =>
    obtain ⟨hvictim, hv, back, hcircle⟩ := circle_eq_append hfind
    have hlength := congrArg List.length hcircle
    rw [length_circle, List.length_append, List.length_cons] at hlength
    have hget := congrArg (·[c.passed.length]?) hcircle
    rw [getElem?_circle (by omega)] at hget
    rw [hvictim]
    exact hstops ⟨v :: back, hcircle.symm⟩ (by simpa using hget.symm) (Or.inr hv)
  | none =>
    obtain ⟨hvictim, hpassed⟩ := passed_eq_circle hfind
    rw [hvictim]
    refine hstops (hpassed ▸ List.prefix_refl _) ?_ (Or.inl ?_)
    · rw [hpassed, length_circle, ahead, Nat.add_mod_right, Nat.mod_eq_of_lt hhand]
    · rw [hpassed]
      exact (mem_circle hhand).2 hhand

/-- How a clock that is full makes room for a new page. -/
structure Relieves (c : Clock ω) (page : Page ω) (c' : Clock ω) (evicted : Option (Page ω)) :
    Prop where
  pos : 0 < c.slots.length
  occupied : ∀ i < c.slots.length, ∃ s, c.slots[i]? = some (some s)
  /-- The hand stops at a page within two rounds. -/
  found : search? (2 * c.slots.length) c = some (sweep (2 * c.slots.length) c)
  victim : ∃ s, c.slots[c.victimSlot]? = some (some s) ∧ evicted = some s.page
  /-- If a bit is clear, the victim is the first page on the circle with such a bit. -/
  first : (∃ i < c.slots.length, c.isMarked i = false) →
    c.isMarked c.victimSlot = false ∧ ∃ back, c.circle = c.passed ++ c.victimSlot :: back
  /-- If all bits are set, the hand passes over all pages and comes back to where it was. -/
  round : (∀ i < c.slots.length, c.isMarked i = true) →
    c.victimSlot = c.hand ∧ ∀ i < c.slots.length, i ∈ c.passed
  /-- The new page takes the place of the victim, and the bits of the pages passed are cleared. -/
  slots : ∀ i s, c.slots[i]? = some (some s) →
    c'.slots[i]? = some (some (
      if i = c.victimSlot then ⟨page, false⟩
      else if i ∈ c.passed then { s with referenced := false } else s))
  length : c'.slots.length = c.slots.length
  free : c'.free = c.free
  capacity : c'.capacity = c.capacity
  hand : c'.hand = (c.victimSlot + 1) % c.slots.length

theorem Valid.slots_of_full (hv : c.Valid) (hfull : c.pages.length = c.capacity) :
    c.free = [] ∧ c.slots.length = c.capacity := by
  have hle := hv.length_le
  cases hfree : c.free with
  | nil => exact ⟨rfl, by rw [← hv.length_pages hfree, hfull]⟩
  | cons i free =>
    -- a vacant slot would leave room
    have hnone : c.slots[i]? = some none := (hv.mem_free i).1 (hfree ▸ List.mem_cons_self)
    have hvacant : none ∈ faces c.slots := List.mem_map.2 ⟨none, List.mem_of_getElem? hnone, rfl⟩
    have hlt : c.pages.length < c.slots.length := by
      rw [pages_eq_reduceOption]
      simpa [faces] using List.reduceOption_length_lt_iff.2 hvacant
    omega

/-- A full clock gives every page whose bit is set a second chance, unless there is no other
page. -/
theorem Valid.relieves (hv : c.Valid) (hfull : c.pages.length = c.capacity)
    (hnew : c.position? page.key = none) : c.Relieves page (c.add page).1 (c.add page).2 := by
  obtain ⟨hfree, hlength⟩ := hv.slots_of_full hfull
  have hpos : 0 < c.slots.length := hlength ▸ hv.pos
  have hhand : c.hand < c.slots.length := by
    have hlt := hv.hand_lt
    omega
  have hoccupied (i : Nat) (hi : i < c.slots.length) := hv.exists_slot hfree hi
  obtain ⟨hlt, hsearch⟩ := search?_spec hoccupied hhand
  have hsweep := sweep_eq_of_search? hsearch
  obtain ⟨s, hs⟩ := hoccupied _ hlt
  have hget (i : Nat) (r : Slot ω) (hr : c.slots[i]? = some (some r)) :
      (clear c.slots c.passed)[i]? =
        some (some (if i ∈ c.passed then { r with referenced := false } else r)) := by
    rw [getElem?_clear, hr, Option.map_some, Option.map_some]
  have hadd : c.add page = ({ c.passing c.passed with
      hand := (c.victimSlot + 1) % c.slots.length
      slots := (clear c.slots c.passed).set c.victimSlot (some ⟨page, false⟩) }, some s.page) := by
    have hpage : pageAt? { c.passing c.passed with hand := (c.victimSlot + 1) % c.slots.length }
        c.victimSlot = some s.page := by
      have hslot : (c.passing c.passed).slots[c.victimSlot]? = _ := hget _ s hs
      simp only [pageAt?, hslot, Option.bind_eq_bind, Option.bind_some]
      split <;> rfl
    simp only [add, hnew, place, hfree, if_neg (Nat.not_lt.2 hlength.ge), hsweep, hpage]
    rfl
  rw [hadd]
  refine ⟨hpos, hoccupied, hsearch.trans (congrArg some hsweep.symm), ⟨s, hs, rfl⟩,
    fun hclear => ?_, fun hall => ?_, fun i r hr => ?_, ?_, rfl, rfl, rfl⟩
  · obtain ⟨i, hi, hbit⟩ := hclear
    cases hfind : c.circle.find? fun i => !c.isMarked i with
    | some v =>
      obtain ⟨hvictim, hv⟩ := circle_eq_append hfind
      exact hvictim.symm ▸ hv
    | none =>
      have hset := List.find?_eq_none.1 hfind i ((mem_circle hhand).2 hi)
      simp [hbit] at hset
  · have hnone : (c.circle.find? fun i => !c.isMarked i) = none := by
      rw [List.find?_eq_none]
      intro i hi
      simpa using hall i ((mem_circle hhand).1 hi)
    obtain ⟨hvictim, hpassed⟩ := passed_eq_circle hnone
    exact ⟨hvictim, fun i hi => hpassed ▸ (mem_circle hhand).2 hi⟩
  · split
    · rename_i hi
      subst hi
      exact List.getElem?_set_self (by rwa [length_clear])
    · rename_i hi
      exact (List.getElem?_set_ne (Ne.symm hi)).trans (hget i r hr)
  · rw [List.length_set, length_clear]

/-! ### What the reference bits tell -/

/-- What happens to the page with a key. -/
inductive Sign where
  | entered (key : PageKey)
  | used (key : PageKey)
  | passed (key : PageKey)
  deriving DecidableEq

/-- The keys of the pages that the hand passes over when a new page is added. -/
def overtaken (c : Clock ω) : List PageKey :=
  if c.pages.length = c.capacity then c.passed.filterMap c.keyAt else []

/-- What happened since the page with the key came in and since the hand passed over it last, the
latest first. -/
def since (log : List Sign) (key : PageKey) : List Sign :=
  log.takeWhile fun sign => sign ≠ .entered key ∧ sign ≠ .passed key

/-- A clock and what happened to its pages, the latest first. -/
structure Course (ω : Type) where
  clock : Clock ω
  log : List Sign := []

namespace Course

/-- The clock after a call.  Adding a page that is on the clock already is a use of it. -/
def step (s : Course ω) : Policy.Call ω → Course ω
  | .add page =>
    match s.clock.position? page.key with
    | some _ => ⟨(s.clock.add page).1, .used page.key :: s.log⟩
    | none =>
      ⟨(s.clock.add page).1, .entered page.key :: (s.clock.overtaken.map .passed ++ s.log)⟩
  | .hit key => ⟨s.clock.hit key, .used key :: s.log⟩
  | .remove key => ⟨s.clock.remove key, s.log⟩

/-- The clock after the calls of a list. -/
def run (s : Course ω) (calls : List (Policy.Call ω)) : Course ω := calls.foldl step s

/-- The bit of every page is set if and only if the page was used since it came in and since the
hand passed over it last. -/
def Told (s : Course ω) : Prop :=
  ∀ (i : Nat) (r : Slot ω), s.clock.slots[i]? = some (some r) →
    (r.referenced = true ↔ .used r.page.key ∈ since s.log r.page.key)

end Course

/-! #### What was signed -/

section Since

variable {log : List Sign} {key' : PageKey}

theorem used_mem_since_used (log : List Sign) (key : PageKey) :
    .used key ∈ since (.used key :: log) key := by
  simp [since]

theorem used_mem_since_other (h : key' ≠ key) :
    .used key ∈ since (.used key' :: log) key ↔ .used key ∈ since log key := by
  simp [since, Ne.symm h]

theorem used_not_mem_since_entered (log : List Sign) (key : PageKey) :
    .used key ∉ since (.entered key :: log) key := by
  simp [since]

theorem used_mem_since_entered (h : key' ≠ key) :
    .used key ∈ since (.entered key' :: log) key ↔ .used key ∈ since log key := by
  simp [since, h]

/-- A page that the hand passed over was not used since. -/
theorem used_mem_since_passed (keys : List PageKey) :
    .used key ∈ since (keys.map .passed ++ log) key ↔ key ∉ keys ∧ .used key ∈ since log key := by
  induction keys with
  | nil => simp
  | cons k keys ih =>
    have hcons : .used key ∈ since (.passed k :: (keys.map .passed ++ log)) key ↔
        key ≠ k ∧ .used key ∈ since (keys.map .passed ++ log) key := by
      by_cases hk : k = key
      · simp [since, hk]
      · simp [since, hk, Ne.symm hk]
    rw [List.map_cons, List.cons_append, hcons, ih, List.mem_cons, not_or, and_assoc]

end Since

/-! #### Call after call -/

/-- No two slots have pages with one key. -/
theorem Valid.eq_of_key (hv : c.Valid) {r r' : Slot ω} (hi : c.slots[i]? = some (some r))
    (hj : c.slots[j]? = some (some r')) (hkey : r.page.key = r'.page.key) : i = j := by
  have hkeys := hv.keys
  rw [List.Nodup, List.pairwise_map, pages, List.pairwise_filterMap,
    List.pairwise_iff_getElem] at hkeys
  obtain ⟨hilt, hslot⟩ := List.getElem?_eq_some_iff.1 hi
  obtain ⟨hjlt, hslot'⟩ := List.getElem?_eq_some_iff.1 hj
  by_contra hne
  rcases Nat.lt_or_gt_of_ne hne with hlt | hlt
  · exact hkeys i j hilt hjlt hlt r.page (by simp [hslot]) r'.page (by simp [hslot']) hkey
  · exact hkeys j i hjlt hilt hlt r'.page (by simp [hslot']) r.page (by simp [hslot]) hkey.symm

theorem ne_of_position?_eq_none (h : c.position? key = none) (hs : c.slots[i]? = some (some s)) :
    key ≠ s.page.key :=
  Ne.symm (position?_eq_none.1 h s.page (mem_pages.2 ⟨s, List.mem_of_getElem? hs, rfl⟩))

/-- Where there is room for a page, the others stay as they are. -/
theorem slots_add_of_room {r : Slot ω} (hv : c.Valid) (hnew : c.position? page.key = none)
    (hroom : c.pages.length ≠ c.capacity) (hr : (c.add page).1.slots[i]? = some (some r)) :
    r = ⟨page, false⟩ ∨ c.slots[i]? = some (some r) := by
  simp only [add, hnew, place] at hr
  split at hr
  · rename_i k free hfree
    dsimp only at hr
    rw [List.getElem?_set] at hr
    split at hr
    · split at hr
      · exact Or.inl (Option.some.inj (Option.some.inj hr)).symm
      · simp at hr
    · exact Or.inr hr
  · rename_i hfree
    have hlt : c.slots.length < c.capacity := by
      have hle := hv.length_le
      have hlength := hv.length_pages hfree
      omega
    rw [if_pos hlt] at hr
    dsimp only at hr
    rw [List.getElem?_append] at hr
    split at hr
    · exact Or.inr hr
    · left
      simpa using (List.mem_of_getElem? hr)

namespace Course

variable {t : Course ω} {calls : List (Policy.Call ω)}

/-- A use sets the bit of the page that is used, and no other. -/
theorem Told.use (h : t.Told) (hv : t.clock.Valid) (key : PageKey) :
    Told ⟨t.clock.hit key, .used key :: t.log⟩ := by
  intro i r hr
  unfold hit at hr
  split at hr
  · rename_i k hk
    obtain ⟨s, hs, rfl⟩ := position?_eq_some hk
    simp only [mark, List.getElem?_modify] at hr
    by_cases hki : k = i
    · subst hki
      simp only [hs, if_true, Option.map_some, Option.map_eq_map, Option.some.injEq] at hr
      subst hr
      simp [used_mem_since_used]
    · simp only [hki, if_false, Option.map_eq_map, Option.map_id'] at hr
      rw [used_mem_since_other fun hkey => hki (hv.eq_of_key hs hr hkey)]
      exact h i r hr
  · rename_i hnone
    rw [used_mem_since_other (ne_of_position?_eq_none hnone hr)]
    exact h i r hr

/-- A page that leaves tells nothing about the others. -/
theorem Told.remove (h : t.Told) (key : PageKey) : Told ⟨t.clock.remove key, t.log⟩ := by
  intro i r hr
  unfold Clock.remove at hr
  split at hr
  · rename_i k hk
    by_cases hki : k = i
    · subst hki
      rw [List.getElem?_set_self'] at hr
      rcases hslot : t.clock.slots[k]? with _ | slot <;> simp [hslot] at hr
    · exact h i r (by rwa [List.getElem?_set_ne hki] at hr)
  · exact h i r hr

/-- A new page was not used yet, and the bits of the pages that the hand passed over are clear. -/
theorem Told.admit (h : t.Told) (hv : t.clock.Valid) {page : Page ω}
    (hnew : t.clock.position? page.key = none) :
    Told ⟨(t.clock.add page).1, .entered page.key :: (t.clock.overtaken.map .passed ++ t.log)⟩ := by
  intro i r hr
  by_cases hfull : t.clock.pages.length = t.clock.capacity
  · have hrelieves := hv.relieves hfull hnew
    have hlt : i < t.clock.slots.length := hrelieves.length ▸ (List.getElem?_eq_some_iff.1 hr).1
    obtain ⟨s, hs⟩ := hrelieves.occupied i hlt
    have hslot := hrelieves.slots i s hs
    rw [hr, Option.some.injEq, Option.some.injEq] at hslot
    have hovertaken : s.page.key ∈ t.clock.overtaken ↔ i ∈ t.clock.passed := by
      rw [overtaken, if_pos hfull, List.mem_filterMap]
      constructor
      · rintro ⟨j, hj, hkey⟩
        rcases hslot' : t.clock.slots[j]? with _ | _ | s'
        · simp [keyAt, pageAt?, hslot'] at hkey
        · simp [keyAt, pageAt?, hslot'] at hkey
        · have hsame : s'.page.key = s.page.key := by simpa [keyAt, pageAt?, hslot'] using hkey
          exact hv.eq_of_key hslot' hs hsame ▸ hj
      · exact fun hi => ⟨i, hi, by simp [keyAt, pageAt?, hs]⟩
    split at hslot
    · subst hslot
      simp [used_not_mem_since_entered]
    · have hne := ne_of_position?_eq_none hnew hs
      split at hslot
      · rename_i hpassed
        subst hslot
        rw [used_mem_since_entered hne, used_mem_since_passed, hovertaken]
        simp [hpassed]
      · rename_i hpassed
        subst hslot
        rw [used_mem_since_entered hne, used_mem_since_passed, hovertaken]
        simpa [hpassed] using h i r hs
  · rw [overtaken, if_neg hfull, List.map_nil, List.nil_append]
    rcases slots_add_of_room hv hnew hfull hr with rfl | hold
    · simp [used_not_mem_since_entered]
    · rw [used_mem_since_entered (ne_of_position?_eq_none hnew hold)]
      exact h i r hold

/-- The bits keep telling. -/
theorem Told.step (h : t.Told) (hv : t.clock.Valid) (call : Policy.Call ω) :
    (t.step call).Told := by
  cases call with
  | add page =>
    rcases hposition : t.clock.position? page.key with _ | i
    · simp only [Course.step, hposition]
      exact h.admit hv hposition
    · have hadd : (t.clock.add page).1 = t.clock.hit page.key := by rw [add, hposition]
      simp only [Course.step, hposition, hadd]
      exact h.use hv page.key
  | hit key => exact h.use hv key
  | remove key => exact h.remove key

/-- What every call keeps. -/
structure Truthful (requested : Nat) (t : Course ω) : Prop where
  valid : t.clock.Valid
  capacity : t.clock.capacity = max requested 1
  told : t.Told

theorem Truthful.step {requested : Nat} (h : t.Truthful requested) (call : Policy.Call ω) :
    (t.step call).Truthful requested := by
  have hanswer := Policy.Valid.answer (p := .clock t.clock) h.valid call
  suffices hsame : .clock (t.step call).clock = (Policy.answer (.clock t.clock) call).1 by
    rw [← hsame] at hanswer
    exact ⟨hanswer.1, hanswer.2.trans h.capacity, h.told.step h.valid call⟩
  cases call with
  | add page =>
    simp only [Course.step]
    split <;> rfl
  | hit key => rfl
  | remove key => rfl

theorem Truthful.run {requested : Nat} (h : t.Truthful requested) (calls : List (Policy.Call ω)) :
    (t.run calls).Truthful requested := by
  induction calls generalizing t with
  | nil => exact h
  | cons call later ih => exact ih (h.step call)

/-- Whatever a clock was told from the start on: if it is full and a new page is added, then there
is a page in each slot, and the hand goes round as `Relieves` says.  A page that was used since it
came in and since the hand passed over it last stays, if the bit of any page is clear. -/
theorem second_chance_run {requested : Nat} {page : Page ω}
    (hrun : run { clock := .empty requested } calls = t)
    (hfull : t.clock.pages.length = t.clock.capacity)
    (hnew : ∀ x ∈ t.clock.pages, x.key ≠ page.key) :
    t.clock.slots.length = max requested 1 ∧
      t.clock.Relieves page (t.clock.add page).1 (t.clock.add page).2 ∧
      ((∃ i < t.clock.slots.length, t.clock.isMarked i = false) →
        ∀ x ∈ t.clock.pages, .used x.key ∈ since t.log x.key →
          (t.clock.add page).2 ≠ some x ∧ x ∈ (t.clock.add page).1.pages) := by
  have htruthful : t.Truthful requested :=
    hrun ▸ Truthful.run ⟨valid_empty requested, rfl, fun i r hr => by
    simp [Clock.empty] at hr⟩ calls
  have hrelieves := htruthful.valid.relieves hfull (position?_eq_none.2 hnew)
  refine ⟨(htruthful.valid.slots_of_full hfull).2.trans htruthful.capacity, hrelieves,
    fun hclear x hx hused => ?_⟩
  obtain ⟨s, hs, hvictim⟩ := hrelieves.victim
  have hother : (t.clock.add page).2 ≠ some x := by
    intro heq
    obtain rfl : s.page = x := Option.some.inj (hvictim.symm.trans heq)
    have hbit := (hrelieves.first hclear).1
    rw [isMarked_of_slot hs, (htruthful.told _ s hs).2 hused] at hbit
    exact Bool.noConfusion hbit
  have hstays := (Policy.mem_pages_add (p := .clock t.clock) (x := x) htruthful.valid hnew).2
    ⟨Or.inr hx, hother⟩
  exact ⟨hother, hstays⟩

/-- The second of three slots was vacated and filled again, and the first two pages were used.  The
hand passes over both, and the third page leaves. -/
theorem second_chance_run_refilled :
    let page (n : Nat) : Page Unit := ⟨⟨1, n⟩, ()⟩
    let t := run { clock := .empty 3 } [.add (page 1), .add (page 2), .add (page 3), .remove ⟨1, 2⟩,
      .add (page 4), .hit ⟨1, 1⟩, .add (page 4)]
    t.clock.pages.length = t.clock.capacity ∧ (∀ x ∈ t.clock.pages, x.key ≠ (page 5).key) ∧
      t.clock.passed = [0, 1] ∧ t.clock.victimSlot = 2 ∧
      t.clock.Relieves (page 5) (t.clock.add (page 5)).1 (t.clock.add (page 5)).2 ∧
      ∃ x ∈ (t.clock.add (page 5)).1.pages, x.key = ⟨1, 1⟩ := by
  intro page t
  have hfull : t.clock.pages.length = t.clock.capacity := by decide +kernel
  have hnew : ∀ x ∈ t.clock.pages, x.key ≠ (page 5).key := by decide +kernel
  have hpassed : t.clock.passed = [0, 1] := by decide +kernel
  have hvictim : t.clock.victimSlot = 2 := by decide +kernel
  have hclear : 2 < t.clock.slots.length ∧ t.clock.isMarked 2 = false := by decide +kernel
  have hused : ∃ x ∈ t.clock.pages, x.key = ⟨1, 1⟩ ∧ .used x.key ∈ since t.log x.key := by
    decide +kernel
  have hrun : run { clock := .empty 3 } _ = t := rfl
  clear_value t
  obtain ⟨x, hx, hkey, hused⟩ := hused
  obtain ⟨-, hrelieves, hstays⟩ := second_chance_run hrun hfull hnew
  exact ⟨hfull, hnew, hpassed, hvictim, hrelieves, x, (hstays ⟨2, hclear⟩ x hx hused).2, hkey⟩

end Course

end Clock

end PagedMap
