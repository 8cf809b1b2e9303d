import Mathlib
import PagedMap.Proofs.Accounts
import PagedMap.Proofs.Calls

/-!
# Blocks in memory and the capacity of policies

After every call of a run the policies track exactly the pages of the listed blocks that count as
tracked, and these are in memory.  Every other block in memory was to leave it, could not be
written, and was not used since.  So, if every page could be written, no more blocks of a policy are
in memory than its capacity (`Watch.accounted_run`).

Nobody but the maps may call a policy or evict a page, no scan may go on after its map gave up the
blocks that it is to read, and the blocks of a snapshot must have different numbers
(`Watch.Regular`): a policy takes two blocks of one map with the same number for one, so that both
may be in memory and only one of them is counted (`Watch.capacity_exceeded_by_twin_ids`).  For the
same reason the numbers must not wrap around in the run (`Engine.IdsFit`).
-/

namespace PagedMap

variable {K V : Type}

namespace Engine

/-- The number of blocks in memory whose policy is `i`, those included that their maps gave up. -/
def loadedCount (e : Engine K V) (i : Nat) : Nat :=
  e.blocks.countP fun b => b.entries.isSome && b.home.policy == i

/-- A stranded block could not be written. -/
theorem Stranded.failedCreations_pos {e : Engine K V} {ref : BlockRef} {b : Block K V}
    (h : e.Stranded ref b) : 0 < e.failedCreations := by
  obtain ⟨es, c, later, earlier, -, hevents, -⟩ := h
  rw [failedCreations, List.countP_pos_iff]
  exact ⟨.pageCreated b.home.store es (.error c), by simp [hevents], rfl⟩

/-- Blocks in memory whose pages a list has, all of them, are no more than the pages. -/
theorem loadedCount_le {e : Engine K V} {i : Nat} (pages : List (Page BlockRef))
    (h : ∀ (ref : BlockRef) b, e.blocks[ref]? = some b → b.entries.isSome = true →
      b.home.policy = i → b.pageOf ref ∈ pages) : e.loadedCount i ≤ pages.length := by
  set held := e.blocks.zipIdx.filter fun x => x.1.entries.isSome && x.1.home.policy == i with hheld
  have hcount : e.loadedCount i = (held.map (·.2)).length := by
    rw [List.length_map, hheld, ← List.countP_eq_length_filter]
    exact (congrArg (List.countP _) (List.zipIdx_map_fst 0 e.blocks).symm).trans List.countP_map
  have hnodup : (held.map (·.2)).Nodup := by
    refine List.Nodup.sublist (List.filter_sublist.map _) ?_
    rw [List.zipIdx_map_snd]
    exact List.nodup_range'
  -- each block in memory is the owner of one of the pages
  have hsub : held.map (·.2) ⊆ pages.map (·.owner) := by
    intro ref hr
    obtain ⟨⟨b, ref⟩, hmem, rfl⟩ := List.mem_map.1 hr
    obtain ⟨hget, hloaded⟩ := List.mem_filter.1 hmem
    rw [Bool.and_eq_true, beq_iff_eq] at hloaded
    have hb : e.blocks[ref]? = some b := List.mk_mem_zipIdx_iff_getElem?.1 hget
    exact List.mem_map.2 ⟨_, h ref b hb hloaded.1 hloaded.2, rfl⟩
  calc e.loadedCount i = (held.map (·.2)).length := hcount
    _ ≤ (pages.map (·.owner)).length := (hnodup.subperm hsub).length_le
    _ = pages.length := List.length_map ..

end Engine

namespace Watch

variable [Wire K] [Wire V] [LE K] [DecidableLE K] [Sized K] [Sized V]

/-- Only the maps call a policy and only policies evict pages, no scan goes on after its map gave up
the blocks that it is to read, and the blocks of a snapshot have different numbers. -/
def Regular (w : Watch K V) : Call K V → Prop
  | .request (.report ..) | .request (.evict _) => False
  | .boot _ snapshot => (snapshot.blocks.map (·.id)).Nodup
  | c => w.Timely c

instance decidableRegular (w : Watch K V) : (c : Call K V) → Decidable (w.Regular c)
  | .request (.report ..) | .request (.evict _) => .isFalse id
  | .boot _ snapshot => inferInstanceAs (Decidable (snapshot.blocks.map (·.id)).Nodup)
  | .request (.next n) => decidableTimely w (.request (.next n))
  | .request (.make ..) | .request (.put ..) | .request (.remove ..) | .request (.get ..)
  | .request (.search ..) | .request (.contains ..) | .request (.range ..)
  | .request (.checkpoint _)
  | .request (.clear _) | .request (.drop _) | .request (.openScan ..) | .request (.closeScan _)
  | .request (.plan _) | .make .. | .plan .. => .isTrue trivial

variable {w : Watch K V} {c : Call K V} {cs : List (Call K V)} {capacities : List Nat}

omit [Wire K] [Wire V] [LE K] [DecidableLE K] [Sized K] [Sized V] in
theorem Regular.timely (h : w.Regular c) : w.Timely c := by
  unfold Regular at h
  split at h
  · exact h.elim
  · exact h.elim
  · trivial
  · exact h

omit [Wire K] [Wire V] [LE K] [DecidableLE K] [Sized K] [Sized V] in
theorem accounted_start {policies : List (Policy BlockRef)} (h : ∀ p ∈ policies, p.Fresh)
    (store : Store K V) (stores : List (Store K V)) (volume : Volume) :
    (start policies store stores volume).engine.Accounted ∅ := by
  refine ⟨fun m state hm => ?_, fun i q hq x => ?_, fun r hr => absurd hr (Finset.notMem_empty r),
    fun i r c hc => ?_, fun i r c hc => ?_, fun r c hc => ?_⟩
  · simp [start] at hm
  · rw [(h q (List.mem_of_getElem? hq)).pages_eq]
    refine ⟨fun hx => by simp at hx, ?_⟩
    rintro ⟨m, b, hl, -⟩
    have hb := hl.blocks_eq
    simp [start] at hb
  · have hb := hc.blocks_eq
    simp [start] at hb
  · have hb := hc.blocks_eq
    simp [start] at hb
  · simp [start] at hc

theorem TracksListed.accounted (h : w.TracksListed capacities) (hc : w.Regular c)
    (ha : w.engine.Accounted ∅) : (w.engine.call c).Accounted ∅ := by
  have ht := h.tidy
  have hreg := h.registered
  have heffect := Engine.effect_call ht h.stores c
  generalize w.engine.call c = e' at heffect ⊢
  cases heffect with
  | steps _ hs => exact hs.accounted ht hreg ha
  | next =>
    rcases h.toOrderly.next_cases hc.timely.punctual with hsame | ⟨m, s, -, hs, hroams⟩
    · rwa [hsame]
    · exact (Engine.steps_next ht hs hroams).1.accounted ht hreg ha
  | giveUp _ hm he => exact Engine.accounted_give_up ha ht hreg hm he
  | boot hm => exact Engine.accounted_restore ha ht hreg hm hc
  | make _ hstore he => exact Engine.accounted_addMap ha ht hstore he
  | evict => exact hc.elim
  | add => exact hc.elim
  | hit => exact hc.elim
  | remove => exact hc.elim
  | aside haside =>
    exact ha.mono haside.maps haside.blocks haside.policies ⟨[], haside.events, by simp⟩

theorem accounted_of_tracksListed (h : w.TracksListed capacities) (ha : w.engine.Accounted ∅)
    (hcs : w.All Regular cs) :
    (w.run cs).TracksListed capacities ∧ (w.run cs).engine.Accounted ∅ := by
  induction hcs with
  | nil => exact ⟨h, ha⟩
  | cons hc _ ih => exact ih (h.step hc.timely) (h.accounted hc ha)

/-- In every run, with any number of maps over one policy and any failures of page stores, as long
as block numbers do not wrap, the policy tracks exactly the pages of the blocks that a map of it
lists and that count as tracked; every block that counts as tracked is in memory; and every other
block in memory was to leave memory, could not be written, and was not used since.  If every page
could be written, then no more blocks of the policy are in memory than its capacity. -/
theorem accounted_run {policies : List (Policy BlockRef)} (hpolicies : ∀ p ∈ policies, p.Fresh)
    {store : Store K V} {stores : List (Store K V)} {volume : Volume}
    (hcs : (start policies store stores volume).All
      (fun w c => w.Regular c ∧ (w.engine.call c).IdsFit) cs) {e : Engine K V}
    (he : ((start policies store stores volume).run cs).engine = e) {i : Nat} {q : Policy BlockRef}
    (hq : e.policies[i]? = some q) :
    (policies[i]?).map (·.capacity) = some q.capacity ∧
    (∀ page, page ∈ q.pages ↔ ∃ m b, e.Lists m page.owner b ∧ b.tracked = true ∧
      b.home.policy = i ∧ page = b.pageOf page.owner) ∧
    (∀ (ref : BlockRef) b, e.blocks[ref]? = some b →
      (b.tracked = true → b.entries.isSome = true) ∧
      (b.entries.isSome = true → b.tracked = false → (∃ m, e.Lists m ref b) ∧ e.Stranded ref b)) ∧
    (e.failedCreations = 0 → e.loadedCount i ≤ q.capacity) := by
  obtain ⟨hwatch, ha⟩ :=
    accounted_of_tracksListed (tracksListed_start hpolicies store stores volume)
    (accounted_start hpolicies store stores volume) (hcs.mono fun _ _ h => h.1)
  rw [he] at ha
  have hreg := he ▸ hwatch.registered
  have hbooked (page : Page BlockRef) : page ∈ q.pages ↔ ∃ m b, e.Lists m page.owner b ∧
      b.tracked = true ∧ b.home.policy = i ∧ page = b.pageOf page.owner := by
    rw [ha.booked i q hq page]
    simp only [Engine.Booked, Finset.notMem_empty, not_false_eq_true, true_and]
  have hblocks (ref : BlockRef) (b : Block K V) (hb : e.blocks[ref]? = some b) :
      (b.tracked = true → b.entries.isSome = true) ∧ (b.entries.isSome = true → b.tracked = false →
        (∃ m, e.Lists m ref b) ∧ e.Stranded ref b) := by
    by_cases hl : ∃ m, e.Lists m ref b
    · obtain ⟨m, hm⟩ := id hl
      exact ⟨ha.loaded m ref b hm, fun hes htracked => ⟨hl, ha.stranded m ref b hm hes htracked⟩⟩
    · obtain ⟨hnone, huntracked⟩ := ha.away ref b hb fun m hm => hl ⟨m, hm⟩
      exact ⟨fun htracked => by simp [huntracked] at htracked, fun hes => by simp [hnone] at hes⟩
  refine ⟨?_, hbooked, hblocks, fun hcreations => ?_⟩
  · have hcapacities := congrArg (·[i]?) hreg.capacities
    simpa [hq] using hcapacities.symm
  · -- no block is stranded if every page could be written, so those in memory are tracked
    refine (Engine.loadedCount_le q.pages fun ref b hb hes hpolicy => ?_).trans
      (hreg.valid i q hq).size_le
    have hkept := hblocks ref b hb
    have htracked : b.tracked = true := by
      by_contra hfalse
      have hstranded := (hkept.2 hes (by simpa using hfalse)).2
      exact hstranded.failedCreations_pos.ne' hcreations
    have hlisted : ∃ m, e.Lists m ref b := by
      by_contra hl
      obtain ⟨-, huntracked⟩ := ha.away ref b hb fun m hm => hl ⟨m, hm⟩
      simp [huntracked] at htracked
    obtain ⟨m, hm⟩ := hlisted
    exact (hbooked _).2 ⟨m, b, hm, htracked, hpolicy, rfl⟩

/-- Three maps share a clock with room for two blocks, and a fourth has a policy of its own.  If the
first block cannot be written when it has to leave memory, it stays there, and the clock does not
track it. -/
theorem accounted_run_failed_eviction :
    let before : List (Call (Shape.uint .w8).Datum (Shape.uint .w8).Datum) :=
      [.request (.make {} 0), .request (.make {} 0), .request (.make {} 0), .request (.make {} 1),
        .request (.put 0 1#8 0x11#8), .request (.put 1 2#8 0x22#8), .request (.put 3 3#8 0x33#8),
        .request (.openScan 1 (some 1#8) none)]
    let refuse : Call (Shape.uint .w8).Datum (Shape.uint .w8).Datum :=
      .request (.plan { creates := .first 1 })
    let after : List (Call (Shape.uint .w8).Datum (Shape.uint .w8).Datum) :=
      [.request (.put 2 4#8 0x44#8), .request (.next 0)]
    let w := start [.clock (.empty 2), .lottery (.empty 1 7)] .inMemory [] {}
    let failed := (w.run (before ++ refuse :: after)).engine
    (∃ b, failed.blocks[0]? = some b ∧ (∃ m, failed.Lists m 0 b) ∧ failed.Stranded 0 b) ∧
      failed.loadedCount 0 = 3 ∧ (w.run (before ++ after)).engine.loadedCount 0 ≤ 2 := by
  intro before refuse after w failed
  have hfailed : w.All (fun w c => w.Regular c ∧ (w.engine.call c).IdsFit)
      (before ++ refuse :: after) := by decide +kernel
  have hwritten : w.All (fun w c => w.Regular c ∧ (w.engine.call c).IdsFit) (before ++ after) := by
    decide +kernel
  have hfresh : ∀ p ∈ [Policy.clock (.empty 2 : Clock BlockRef), .lottery (.empty 1 7)],
      p.Fresh := by
    simpa using ⟨Policy.Fresh.clock 2, Policy.Fresh.lottery 1 7⟩
  have hpolicies : 0 < failed.policies.length := by decide +kernel
  have hpolicies' : 0 < (w.run (before ++ after)).engine.policies.length := by decide +kernel
  have hblock : (failed.blocks[0]?).map (fun b => (b.entries.isSome, b.tracked)) =
      some (true, false) := by
    decide +kernel
  obtain ⟨b, hb, hkept⟩ := Option.map_eq_some_iff.1 hblock
  obtain ⟨hes, huntracked⟩ := Prod.mk.inj hkept
  obtain ⟨-, -, hblocks, -⟩ := accounted_run hfresh hfailed rfl (List.getElem?_eq_getElem hpolicies)
  obtain ⟨hcapacity, -, -, hcount⟩ :=
    accounted_run hfresh hwritten rfl (List.getElem?_eq_getElem hpolicies')
  refine ⟨⟨b, hb, (hblocks 0 b hb).2 hes huntracked⟩, by decide +kernel, ?_⟩
  exact (hcount (by decide +kernel)).trans (Option.some.inj hcapacity).ge

/-- A map is restored from a description of two blocks with the same number.  Both are in memory
after they were read, although the capacity of their clock is 1 and every page could be written: the
clock takes their pages for one. -/
theorem capacity_exceeded_by_twin_ids :
    let cs : List (Call (Shape.uint .w8).Datum (Shape.uint .w8).Datum) :=
      [.request (.make {} 1), .request (.put 0 1#8 0x11#8), .request (.checkpoint 0),
        .request (.make {} 1), .request (.put 1 5#8 0x55#8), .request (.checkpoint 1),
        .request (.make {} 0), .boot 2 ⟨[⟨1#8, 1#8, 1, 95, 1⟩, ⟨5#8, 5#8, 1, 95, 2⟩]⟩,
        .request (.get 2 1#8), .request (.get 2 5#8)]
    let e := ((start [.clock (.empty 1), .clock (.empty 4)] .inMemory [] {}).run cs).engine
    e.policies.map (·.capacity) = [1, 4] ∧ e.failedCreations = 0 ∧ e.loadedCount 0 = 2 ∧
      e.policies.map (·.size) = [1, 2] := by
  decide +kernel

end Watch

end PagedMap
