import Mathlib
import PagedMap.Proofs.Calls

/-!
# Maps that gave up their blocks

A map that gives up its blocks leaves nothing of them with its policy.  In every run in which no
scan goes on after its map gave up the blocks that it is to read, each page that a policy tracks is
the page of a block that its map lists, and evicting the page acts on this block (`Engine.Houses`).
So a policy is empty as long as all its maps gave up their blocks and none of them is called
(`Watch.houses_run`).

A scan that goes on later reads a block that was given up, and brings its page back to the policy
(`Watch.page_back_by_scan`).  Block numbers are to stay below the largest 64-bit word
(`Engine.IdsFit`): one that wraps may be that of a listed block.
-/

namespace PagedMap

variable {K V : Type}

namespace Engine

variable [Wire K] [Wire V]

/-- Evicting a page takes the entries of its block `b` out of memory, unless they cannot be written,
and leaves all other blocks. -/
def ActsOn (e : Engine K V) (page : Page BlockRef) (b : Block K V) : Prop :=
  (∃ b', (e.evict page).blocks[page.owner]? = some b' ∧ b'.frame = b.frame ∧
    (b'.entries = none ∨ ∃ es c, b.entries = some es ∧ b'.entries = some es ∧
      (e.evict page).events = .noticed (.evictionFailed page.key (.storage c)) ::
        .pageCreated b.home.store es (.error c) :: e.events)) ∧
  ∀ r ≠ page.owner, (e.evict page).blocks[r]? = e.blocks[r]?

/-- A page that policy `i` tracks is the page of a block that its map lists, and the one that an
eviction of the page acts on. -/
def Houses (e : Engine K V) (i : Nat) (page : Page BlockRef) : Prop :=
  ∃ m state b, page.key.ownerId = m + 1 ∧ e.maps[m]? = some state ∧ state.home.policy = i ∧
    page.owner ∈ state.directory.refs ∧ e.blocks[page.owner]? = some b ∧ b.home = state.home ∧
    b.id = page.key.pageId ∧ e.ActsOn page b

variable {e e' : Engine K V} {m i : Nat} {page : Page BlockRef} {b : Block K V}

theorem Tidy.actsOn (ht : e.Tidy) (hl : e.Lists m page.owner b) (hid : b.id = page.key.pageId) :
    e.ActsOn page b := by
  obtain ⟨b', hb', hsame, hcases⟩ :=
    evict_cases hl.blocks_eq (ht.released_eq hl) hid (ht.store_lt hl)
  refine ⟨⟨b', hb', hsame, ?_⟩, (quiet_evict page e).others⟩
  rcases hcases with ⟨hnone, rfl⟩ | ⟨hnone, -⟩ | ⟨es, c, hes, rfl, hevents⟩
  · exact Or.inl hnone
  · exact Or.inl hnone
  · exact Or.inr ⟨es, c, hes, hes, hevents⟩

theorem Registered.houses {capacities : List Nat} {q : Policy BlockRef}
    (h : Registered capacities e) (ht : e.Tidy) (hq : e.policies[i]? = some q)
    (hpage : page ∈ q.pages) : e.Houses i page := by
  obtain ⟨m, b, hl, hpolicy, heq⟩ := h.known i q hq page hpage
  obtain ⟨state, start, hm, hmem, hb, hhome, howner, -⟩ := ht.of_lists hl
  have hkey : page.key = ⟨b.home.owner, b.id⟩ := congrArg (·.key) heq
  refine ⟨m, state, b, by rw [hkey, howner], hm, hhome ▸ hpolicy,
    List.mem_map_of_mem hmem, hb, hhome, by rw [hkey], ht.actsOn hl (by rw [hkey])⟩

end Engine

namespace Watch

variable [Wire K] [Wire V] [LE K] [DecidableLE K] [Sized K] [Sized V]

/-- Map `m` gave up its blocks, and it was not called since. -/
def Finished (m : Nat) (cs : List (Call K V)) : Prop :=
  ∃ before c after, cs = before ++ c :: after ∧ (c = .request (.clear m) ∨ c = .request (.drop m)) ∧
    ∀ c ∈ after, c.target? ≠ some m

/-- Map `m` lists no blocks, if there is such a map. -/
def Vacant (m : Nat) (e : Engine K V) : Prop :=
  ∀ state, e.maps[m]? = some state → state.directory = []

variable {w : Watch K V} {c : Call K V} {cs : List (Call K V)} {capacities : List Nat} {m : Nat}

omit [Sized K] [Sized V] in
/-- A map that lists no blocks lists none until it is called. -/
theorem vacant_effect {e e' : Engine K V} (h : Engine.Effect e c e') (ht : e.Tidy)
    (hvacant : Vacant m e) (htarget : c.target? ≠ some m) : Vacant m e' := by
  have hsame {e' : Engine K V} (hmaps : e'.maps[m]? = e.maps[m]?) : Vacant m e' :=
    fun state hm => hvacant state (hmaps ▸ hm)
  have hpaging {e' : Engine K V} (hp : Engine.Paging e e') : Vacant m e' :=
    hsame (congrArg (·[m]?) hp.maps)
  have hother {i : Nat} (hi : c.target? = some i) : m ≠ i := fun hne => htarget (hne ▸ hi)
  cases h with
  | steps hi hs => exact hsame ((hs.retains ht).others m (hother hi))
  | next => exact hpaging (Engine.paging_next _ _)
  | @giveUp i state _ _ hcall hi he =>
    have hne : m ≠ i := hother (by rcases hcall with rfl | rfl <;> rfl)
    exact hsame (by rw [Engine.maps_give_up hi he, List.getElem?_set_ne hne.symm])
  | @boot i state snapshot hi =>
    have hne : m ≠ i := hother rfl
    have hi₀ : (e.notify (.mapRestored snapshot.blocks.length)).maps[i]? = some state := hi
    obtain ⟨-, -, -, hrestores⟩ := Engine.restores_restore snapshot ht hi
    refine hsame ((hrestores.others m hne).trans ?_)
    rw [Engine.maps_give_up hi₀ (Or.inl rfl), List.getElem?_set_ne hne.symm]
    rfl
  | make _ _ he =>
    obtain ⟨budget, -, rfl⟩ := Engine.addMap_eq_ok he
    intro state hm
    simp only [Engine.getElem?_append_singleton] at hm
    split at hm
    · exact Option.some.inj hm ▸ rfl
    · exact hvacant state hm
  | evict => exact hpaging (Engine.quiet_evict _ _).toPaging
  | add => exact hpaging (Engine.paging_addPage _ _ _)
  | hit => exact hpaging (Engine.paging_hitPage _ _ _)
  | remove => exact hpaging (Engine.paging_removePage _ _ _)
  | aside haside => exact hpaging haside.paging

theorem TracksListed.vacant_run (h : w.TracksListed capacities) (hcs : w.All Timely cs)
    (hvacant : Vacant m w.engine) (htarget : ∀ c ∈ cs, c.target? ≠ some m) :
    Vacant m (w.run cs).engine := by
  induction hcs with
  | nil => exact hvacant
  | cons hc _ ih =>
    rw [List.forall_mem_cons] at htarget
    exact ih (h.step hc)
      (vacant_effect (Engine.effect_call h.tidy h.stores _) h.tidy hvacant htarget.1) htarget.2

/-- A map that gave up its blocks lists none. -/
theorem vacant_giveUp (hc : c = .request (.clear m) ∨ c = .request (.drop m)) :
    Vacant m (w.engine.call c) := by
  cases hm : w.engine.maps[m]? with
  | none =>
    have hge : ¬ m < w.engine.maps.length := by simpa using hm
    have hcall : w.engine.call c = w.engine := by
      rcases hc with rfl | rfl <;> simp [Engine.call, Engine.serve, Request.target?, hge]
    rw [hcall]
    exact fun state hm' => by simp [hm] at hm'
  | some state =>
    obtain ⟨hlt, -⟩ := List.getElem?_eq_some_iff.1 hm
    have he : w.engine.call c = w.engine.clear m ∨ w.engine.call c = w.engine.drop m := by
      rcases hc with rfl | rfl
      · exact Or.inl (by simp [Engine.call, Engine.serve, Request.target?, hlt, Engine.perform])
      · exact Or.inr (by simp [Engine.call, Engine.serve, Request.target?, hlt, Engine.perform])
    intro state' hm'
    rw [Engine.maps_give_up hm he, List.getElem?_set_self hlt] at hm'
    exact Option.some.inj hm' ▸ rfl

theorem All.append_iff {P : Watch K V → Call K V → Prop} {cs cs' : List (Call K V)} :
    w.All P (cs ++ cs') ↔ w.All P cs ∧ (w.run cs).All P cs' := by
  induction cs generalizing w with
  | nil => exact ⟨fun h => ⟨.nil w, h⟩, fun h => h.2⟩
  | cons c cs ih =>
    constructor
    · intro h
      cases h with
      | cons hc hrest =>
        obtain ⟨hcs, hcs'⟩ := ih.1 hrest
        exact ⟨.cons hc hcs, hcs'⟩
    · rintro ⟨h, hcs'⟩
      cases h with
      | cons hc hcs => exact .cons hc (ih.2 ⟨hcs, hcs'⟩)

/-- Giving up blocks is final for the policy, whatever else is called and whatever the snapshots
describe, and with any failures of page stores, unless a scan goes on after its map gave up the
blocks that it is to read or block numbers wrap: each page that a policy tracks is the page of a
block that its map lists, which is the block that an eviction of the page acts on, and the policy
tracks none once all its maps gave up their blocks and are not called any more. -/
theorem houses_run {policies : List (Policy BlockRef)} (hpolicies : ∀ p ∈ policies, p.Fresh)
    {store : Store K V} {stores : List (Store K V)} {volume : Volume}
    (hcs : (start policies store stores volume).All
      (fun w c => w.Timely c ∧ (w.engine.call c).IdsFit) cs) {e : Engine K V}
    (he : ((start policies store stores volume).run cs).engine = e) {i : Nat} {q : Policy BlockRef}
    (hq : e.policies[i]? = some q) :
    (∀ page ∈ q.pages, e.Houses i page) ∧
      ((∀ m state, e.maps[m]? = some state → state.home.policy = i → Finished m cs) →
        q.size = 0) := by
  subst he
  have hstart := tracksListed_start hpolicies store stores volume
  have htimely := hcs.mono fun _ _ h => h.1
  have hwatch := tracksListed_run hstart htimely
  refine ⟨fun page hpage => hwatch.registered.houses hwatch.tidy hq hpage, fun hfinished => ?_⟩
  rw [Policy.size, List.length_eq_zero_iff, List.eq_nil_iff_forall_not_mem]
  intro page hpage
  -- the block of a tracked page is listed, but its map lists none since it gave them up
  obtain ⟨m, state, -, -, hm, hpolicy, href, -⟩ := hwatch.registered.houses hwatch.tidy hq hpage
  obtain ⟨before, c, after, rfl, hc, hafter⟩ := hfinished m state hm hpolicy
  obtain ⟨hbefore, hrest⟩ := All.append_iff.1 htimely
  cases hrest with
  | cons hcall hafter' =>
    have hwatch' := tracksListed_run hstart hbefore
    have hvacant := TracksListed.vacant_run (hwatch'.step hcall) hafter' (vacant_giveUp hc) hafter
    rw [run, List.foldl_append] at hm
    rw [hvacant state hm] at href
    simp [Directory.refs] at href

/-- Two maps share a policy with room for two blocks.  The first is restored while a scan over it
goes on that is not asked again, and then both are dropped. -/
theorem houses_run_two_maps :
    let cs : List (Call (Shape.uint .w8).Datum (Shape.uint .w8).Datum) :=
      [.request (.make {} 0), .request (.make {} 0), .request (.put 0 1#8 0x11#8),
        .request (.put 1 2#8 0x22#8), .request (.checkpoint 0),
        .request (.openScan 0 (some 1#8) none), .request (.next 0),
        .boot 0 ⟨[⟨1#8, 1#8, 0, 95, 1⟩]⟩, .request (.get 0 1#8)]
    let drops : List (Call (Shape.uint .w8).Datum (Shape.uint .w8).Datum) :=
      [.request (.drop 1), .request (.evict ⟨⟨1, 0⟩, 2⟩), .request (.drop 0),
        .request (.evict ⟨⟨1, 0⟩, 2⟩)]
    let w := start [.clock (.empty 2)] .inMemory [] {}
    (∃ q, (w.run cs).engine.policies[0]? = some q ∧
      q.pages.map (fun page => (page.key.ownerId, page.owner)) = [(1, 2), (2, 1)] ∧
      ∀ page ∈ q.pages, (w.run cs).engine.Houses 0 page) ∧
    ∃ q, (w.run (cs ++ drops)).engine.policies[0]? = some q ∧ q.size = 0 := by
  intro cs drops w
  have hcs : w.All (fun w c => w.Timely c ∧ (w.engine.call c).IdsFit) cs := by decide +kernel
  have hall : w.All (fun w c => w.Timely c ∧ (w.engine.call c).IdsFit) (cs ++ drops) := by
    decide +kernel
  have hfresh : ∀ p ∈ [Policy.clock (.empty 2 : Clock BlockRef)], p.Fresh := by
    simpa using Policy.Fresh.clock 2
  have hpages : ((w.run cs).engine.policies[0]?.map
      fun q => q.pages.map fun page => (page.key.ownerId, page.owner)) = some [(1, 2), (2, 1)] := by
    decide +kernel
  obtain ⟨q, hq, hpages⟩ := Option.map_eq_some_iff.1 hpages
  have hmaps : (w.run (cs ++ drops)).engine.maps.length = 2 := by decide +kernel
  have hpolicies : 0 < (w.run (cs ++ drops)).engine.policies.length := by decide +kernel
  refine ⟨⟨q, hq, hpages, (houses_run hfresh hcs rfl hq).1⟩, _, List.getElem?_eq_getElem hpolicies,
    (houses_run hfresh hall rfl (List.getElem?_eq_getElem hpolicies)).2 fun m state hm _ => ?_⟩
  have hlt : m < 2 := hmaps ▸ (List.getElem?_eq_some_iff.1 hm).1
  interval_cases m
  · exact ⟨cs ++ drops.take 2, _, [.request (.evict ⟨⟨1, 0⟩, 2⟩)], rfl, Or.inr rfl, by decide⟩
  · exact ⟨cs, _, drops.tail, rfl, Or.inr rfl, by decide⟩

/-- A scan that goes on after its map was cleared brings the page of a block that was given up back
to the policy, which tracks it although no map has any blocks. -/
theorem page_back_by_scan :
    let cs : List (Call (Shape.uint .w8).Datum (Shape.uint .w8).Datum) :=
      [.request (.make {} 0), .request (.put 0 1#8 0x11#8), .request (.checkpoint 0),
        .request (.openScan 0 (some 1#8) (some 1#8)), .request (.clear 0), .request (.next 0)]
    let e := ((start [.clock (.empty 2)] .inMemory [] {}).run cs).engine
    Finished 0 cs ∧ e.maps.map (·.directory.length) = [0] ∧
      e.policies.map (fun q => q.pages.map fun page => (page.key.ownerId, page.owner)) =
        [[(1, 0)]] := by
  intro cs e
  have he : e.maps.map (·.directory.length) = [0] ∧
      e.policies.map (fun q => q.pages.map fun page => (page.key.ownerId, page.owner)) =
        [[(1, 0)]] := by
    decide +kernel
  exact ⟨⟨cs.take 4, _, [.request (.next 0)], rfl, Or.inl rfl, by decide⟩, he⟩

end Watch

end PagedMap
