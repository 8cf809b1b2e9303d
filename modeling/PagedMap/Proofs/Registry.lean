import Mathlib
import PagedMap.Engine.Snapshot
import PagedMap.Proofs.Policies
import PagedMap.Proofs.Serve
import PagedMap.Proofs.Steps

/-!
# The pages that policies track

Every page that a policy tracks is the page of a block that a map lists, under the number of the
block, and the policy is that of the map (`Engine.Registered`).  Every step on behalf of a map keeps
this (`Engine.Steps.registered`), and so does giving up all blocks of a map, whose pages are taken
from their policy (`Engine.registered_give_up`), and listing blocks from a snapshot, whose pages no
policy knows yet (`Engine.registered_restore`).
-/

namespace PagedMap

variable {K V : Type}

namespace Engine

/-- The policies track pages of listed blocks only, and have the given capacities. -/
structure Registered (capacities : List Nat) (e : Engine K V) : Prop where
  capacities : e.policies.map (·.capacity) = capacities
  valid : ∀ (i : Nat) q, e.policies[i]? = some q → q.Valid
  known : ∀ (i : Nat) q, e.policies[i]? = some q → ∀ page ∈ q.pages,
    ∃ m b, e.Lists m page.owner b ∧ b.home.policy = i ∧ page = b.pageOf page.owner

variable {e e' e'' : Engine K V} {m : Nat} {state : MapState K} {ref : BlockRef} {b b' : Block K V}
  {capacities : List Nat} {x y : Finset BlockRef × Engine K V} {policy : Nat} {page : Page BlockRef}

/-! ### Calls of a policy -/

theorem policies_hitPage (policy : Nat) (page : Page BlockRef) (e : Engine K V) :
    (e.hitPage policy page).policies = e.policies.modify policy (·.hit page.key) := by
  rw [List.modify_eq_set_getElem?]
  dsimp only [hitPage, record]
  cases e.policies[policy]? <;> rfl

theorem policies_removePage (policy : Nat) (page : Page BlockRef) (e : Engine K V) :
    (e.removePage policy page).policies = e.policies.modify policy (·.remove page.key) := by
  rw [List.modify_eq_set_getElem?]
  dsimp only [removePage, record]
  cases e.policies[policy]? <;> rfl

theorem policies_addPage [Wire K] [Wire V] (policy : Nat) (page : Page BlockRef) (e : Engine K V) :
    (e.addPage policy page).policies = e.policies.modify policy fun q => (q.add page).1 := by
  rw [List.modify_eq_set_getElem?]
  dsimp only [addPage, record]
  cases e.policies[policy]? with
  | none => rfl
  | some q =>
    rcases hadd : q.add page with ⟨q', _ | victim⟩
    · simp [hadd, setPolicy]
    · simp [hadd, (quiet_evict victim _).policies, setPolicy]

/-- A policy may be told of something that keeps its capacity and brings in no page but those of
listed blocks. -/
theorem Registered.tell {f : Policy BlockRef → Policy BlockRef} (h : Registered capacities e)
    (hpolicies : e'.policies = e.policies.modify policy f)
    (hf : ∀ q ∈ e.policies[policy]?, (f q).capacity = q.capacity ∧ (q.Valid → (f q).Valid) ∧
      (q.Valid → ∀ x ∈ (f q).pages, x ∈ q.pages ∨
        ∃ m b, e.Lists m x.owner b ∧ b.home.policy = policy ∧ x = b.pageOf x.owner))
    (hlists : ∀ i (r : BlockRef) (b : Block K V), e.Lists i r b →
      ∃ b', e'.Lists i r b' ∧ b'.home = b.home ∧ b'.id = b.id) : Registered capacities e' := by
  have hget (i : Nat) (q' : Policy BlockRef) (hq' : e'.policies[i]? = some q') :
      ∃ q, e.policies[i]? = some q ∧ q' = if policy = i then f q else q := by
    rw [hpolicies, List.getElem?_modify] at hq'
    obtain ⟨q, hq, rfl⟩ := Option.map_eq_some_iff.1 hq'
    exact ⟨q, hq, rfl⟩
  refine ⟨?_, fun i q' hq' => ?_, fun i q' hq' x hx => ?_⟩
  · rw [← h.capacities, hpolicies]
    refine List.ext_getElem? fun i => ?_
    simp only [List.getElem?_map, List.getElem?_modify]
    cases hq : e.policies[i]? with
    | none => rfl
    | some q =>
      by_cases hi : policy = i
      · subst hi
        simp [(hf q hq).1]
      · simp [hi]
  · obtain ⟨q, hq, rfl⟩ := hget i q' hq'
    split
    · rename_i hi
      subst hi
      exact (hf q hq).2.1 (h.valid _ q hq)
    · exact h.valid i q hq
  · obtain ⟨q, hq, rfl⟩ := hget i q' hq'
    have hknown :
        x ∈ q.pages ∨ ∃ m b, e.Lists m x.owner b ∧ b.home.policy = i ∧ x = b.pageOf x.owner := by
      split at hx
      · rename_i hi
        subst hi
        exact (hf q hq).2.2 (h.valid _ q hq) x hx
      · exact Or.inl hx
    obtain ⟨m, b, hl, hpolicy, hpage⟩ := hknown.elim (h.known i q hq x) id
    obtain ⟨b', hl', hhome, hid⟩ := hlists m x.owner b hl
    refine ⟨m, b', hl', hhome ▸ hpolicy, hpage.trans ?_⟩
    rw [Block.pageOf, Block.pageOf, hhome, hid]

/-- A step that no policy is told of keeps the policies to pages of listed blocks. -/
theorem Registered.of_policies (h : Registered capacities e) (hpolicies : e'.policies = e.policies)
    (hlists : ∀ i (r : BlockRef) (b : Block K V), e.Lists i r b →
      ∃ b', e'.Lists i r b' ∧ b'.home = b.home ∧ b'.id = b.id) : Registered capacities e' := by
  have hmodify : e'.policies = e.policies.modify 0 id := by rw [hpolicies, List.modify_id]
  exact h.tell hmodify (fun q _ => ⟨rfl, id, fun _ x hx => Or.inl hx⟩) hlists

variable [Wire K] [Wire V] [LE K] [DecidableLE K]

/-- Every step keeps the policies to pages of listed blocks. -/
theorem Step.registered (hstep : Step m x y) (ht : x.2.Tidy) (h : Registered capacities x.2) :
    Registered capacities y.2 := by
  have hlists := (hstep.retains ht).lists
  cases hstep with
  | read hl hrun => exact h.of_policies (quiet_access hl.blocks_eq hrun).1.policies hlists
  | unread _ hrun => exact h.of_policies (quiet_access_error hrun).1.policies hlists
  | edit hl _ hb => exact h.of_policies rfl hlists
  | list hm hb => exact h.of_policies rfl hlists
  | hit _ _ =>
    refine h.tell (policies_hitPage _ _ _) (fun q _ => ?_) hlists
    exact ⟨q.capacity_hit _, fun hv => hv.hit _, fun _ x hx => Or.inl (q.pages_hit _ ▸ hx)⟩
  | @add _ _ ref b hl _ =>
    refine h.tell (policies_addPage _ _ _) (fun q hq => ?_) hlists
    have hv := h.valid _ q hq
    obtain ⟨hvalid, hcapacity, hmem⟩ := hv.add (b.pageOf ref)
    refine ⟨hcapacity, fun _ => hvalid, fun _ x hx => ?_⟩
    rcases hmem x hx with rfl | hx
    · exact Or.inr ⟨m, b, hl, rfl, rfl⟩
    · exact Or.inl hx
  | persist _ hrun => exact h.of_policies (quiet_persist hrun).1.policies hlists
  | look scans => exact h.of_policies rfl hlists
  | note notice => exact h.of_policies rfl hlists

theorem Steps.registered (hsteps : Steps m x y) (ht : x.2.Tidy) (h : Registered capacities x.2) :
    Registered capacities y.2 := by
  induction hsteps with
  | refl => exact h
  | tail hsteps hstep ih => exact hstep.registered (Steps.retains hsteps ht).tidy ih

omit [LE K] [DecidableLE K] in
theorem registered_evict (page : Page BlockRef) (h : Registered capacities e) :
    Registered capacities (e.evict page) := by
  have hquiet := quiet_evict page e
  refine h.of_policies hquiet.policies fun i r b hl => ?_
  obtain ⟨b', hl', hsame⟩ := hquiet.lists hl
  exact ⟨b', hl', Block.home_eq_of_frame hsame, Block.id_eq_of_frame hsame⟩

/-! ### Giving up blocks -/

section GivingUp

omit [Wire K] [Wire V] [LE K] [DecidableLE K]

/-- The block left memory, and no policy tracks its page. -/
structure Gone (e : Engine K V) (ref : BlockRef) : Prop where
  block : ∀ b, e.blocks[ref]? = some b → b.entries = none ∧ b.tracked = false
  untracked : ∀ (i : Nat) q, e.policies[i]? = some q → ∀ page ∈ q.pages, page.owner ≠ ref

theorem discard_eq (hb : e.blocks[ref]? = some b) : e.discard ref =
    (e.setBlock ref b.forgotten).removePage b.home.policy (b.pageOf ref) := by
  rw [discard, hb]

theorem blocks_removePage (policy : Nat) (page : Page BlockRef) (e : Engine K V) :
    (e.removePage policy page).blocks = e.blocks := by
  dsimp only [removePage]
  split <;> rfl

theorem blocks_discard (hb : e.blocks[ref]? = some b) :
    (e.discard ref).blocks = e.blocks.set ref b.forgotten := by
  rw [discard_eq hb, blocks_removePage]
  rfl

theorem getElem?_blocks_discard (ref r : BlockRef) (e : Engine K V) : (e.discard ref).blocks[r]? =
    (e.blocks[r]?).map fun b => if r = ref then b.forgotten else b := by
  cases hb : e.blocks[ref]? with
  | none =>
    have hsame : e.discard ref = e := by rw [discard, hb]
    rw [hsame]
    by_cases hr : r = ref
    · subst hr
      simp [hb]
    · simp [hr]
  | some b =>
    rw [blocks_discard hb]
    by_cases hr : r = ref
    · subst hr
      rw [List.getElem?_set_self (List.getElem?_eq_some_iff.1 hb).1, hb,
        Option.map_some, if_pos rfl]
    · rw [List.getElem?_set_ne (Ne.symm hr)]
      simp [hr]

theorem getElem?_blocks_foldl_discard (refs : List BlockRef) (r : BlockRef) (e : Engine K V) :
    (refs.foldl discard e).blocks[r]? =
      (e.blocks[r]?).map fun b => if r ∈ refs then b.forgotten else b := by
  induction refs generalizing e with
  | nil => simp
  | cons ref refs ih =>
    rw [List.foldl_cons, ih, getElem?_blocks_discard, Option.map_map]
    congr 1
    funext b
    by_cases hr : r = ref <;> by_cases hmem : r ∈ refs <;> simp [hr, hmem, Block.forgotten]

theorem policies_discard (hb : e.blocks[ref]? = some b) : (e.discard ref).policies =
    e.policies.modify b.home.policy (·.remove (b.pageOf ref).key) := by
  rw [discard_eq hb, policies_removePage]
  rfl

theorem paging_discard (hb : e.blocks[ref]? = some b) : Paging e (e.discard ref) := by
  rw [discard_eq hb]
  have hset : Quiet ref e (e.setBlock ref b.forgotten) := quiet_setBlock hb rfl
  exact hset.toPaging.trans (paging_removePage _ _ _)

theorem registered_discard (ht : e.Tidy) (h : Registered capacities e) (hl : e.Lists m ref b) :
    Registered capacities (e.discard ref) ∧ (e.discard ref).Gone ref := by
  have hb := hl.blocks_eq
  obtain ⟨hlt, -⟩ := List.getElem?_eq_some_iff.1 hb
  have hreg : Registered capacities (e.discard ref) := by
    refine h.tell (policies_discard hb) (fun q hq => ?_) fun i r c hc => ?_
    · refine ⟨q.capacity_remove _, fun hv => hv.remove _, fun hv x hx => Or.inl ?_⟩
      exact ((Policy.mem_pages_remove hv).1 hx).1
    · obtain ⟨c', hc', hsame⟩ := (paging_discard hb).lists hc
      exact ⟨c', hc', Block.home_eq_of_frame hsame, Block.id_eq_of_frame hsame⟩
  refine ⟨hreg, fun c hc => ?_, fun i q' hq' page hpage howner => ?_⟩
  · rw [blocks_discard hb, List.getElem?_set_self hlt] at hc
    exact Option.some.inj hc ▸ ⟨rfl, rfl⟩
  · rw [policies_discard hb, List.getElem?_modify] at hq'
    obtain ⟨q, hq, rfl⟩ := Option.map_eq_some_iff.1 hq'
    have hkept : page ∈ q.pages ∧ (b.home.policy = i → page.key ≠ (b.pageOf ref).key) := by
      split at hpage
      · have hmem := (Policy.mem_pages_remove (h.valid i q hq)).1 hpage
        exact ⟨hmem.1, fun _ => hmem.2⟩
      · rename_i hne
        exact ⟨hpage, fun heq => absurd heq hne⟩
    obtain ⟨m', c, hc, hpolicy, heq⟩ := h.known i q hq page hkept.1
    obtain ⟨-, rfl⟩ := ht.eq_of_lists hl (howner ▸ hc)
    exact hkept.2 hpolicy (congrArg (·.key) (howner ▸ heq))

/-- A block that is gone stays so when another one is given up. -/
theorem Gone.discard {r : BlockRef} (h : e.Gone r)
    (hv : ∀ (i : Nat) q, e.policies[i]? = some q → q.Valid)
    (hb : e.blocks[ref]? = some b) (hne : r ≠ ref) : (e.discard ref).Gone r := by
  refine ⟨fun c hc => h.block c ?_, fun i q' hq' page hpage => ?_⟩
  · rwa [blocks_discard hb, List.getElem?_set_ne hne.symm] at hc
  · rw [policies_discard hb, List.getElem?_modify] at hq'
    obtain ⟨q, hq, rfl⟩ := Option.map_eq_some_iff.1 hq'
    refine h.untracked i q hq page ?_
    split at hpage
    · exact ((Policy.mem_pages_remove (hv i q hq)).1 hpage).1
    · exact hpage

/-- All blocks of a list that a map lists may be given up.  What giving up one block keeps is
kept. -/
theorem foldl_discard {P : Engine K V → Prop} {refs : List BlockRef}
    (hP : ∀ (e : Engine K V) (ref : BlockRef) (b : Block K V), e.Tidy → e.Lists m ref b → P e →
      P (e.discard ref))
    (ht : e.Tidy) (hrefs : ∀ ref ∈ refs, ∃ b, e.Lists m ref b) (h : Registered capacities e)
    (hp : P e) : Paging e (refs.foldl discard e) ∧ Registered capacities (refs.foldl discard e) ∧
      P (refs.foldl discard e) ∧ (∀ ref ∈ refs, (refs.foldl discard e).Gone ref) ∧
      ∀ r ∉ refs, (refs.foldl discard e).blocks[r]? = e.blocks[r]? := by
  suffices hall : ∀ (done : List BlockRef) (e : Engine K V),
    e.Tidy → (∀ ref ∈ refs, ∃ b, e.Lists m ref b) →
      Registered capacities e → P e → (∀ ref ∈ done, e.Gone ref) →
      Paging e (refs.foldl discard e) ∧ Registered capacities (refs.foldl discard e) ∧
        P (refs.foldl discard e) ∧ (∀ ref ∈ done ++ refs, (refs.foldl discard e).Gone ref) ∧
        ∀ r ∉ refs, (refs.foldl discard e).blocks[r]? = e.blocks[r]? from
    hall [] e ht hrefs h hp (by simp)
  clear hrefs
  intro done
  induction refs generalizing done with
  | nil => exact fun e _ _ h hp hgone => ⟨.refl e, h, hp, by simpa using hgone, fun _ _ => rfl⟩
  | cons ref refs ih =>
    intro e ht hrefs h hp hgone
    rw [List.forall_mem_cons] at hrefs
    obtain ⟨⟨b, hl⟩, hrest⟩ := hrefs
    have hb := hl.blocks_eq
    have hpaging := paging_discard hb
    obtain ⟨hreg, hnow⟩ := registered_discard ht h hl
    have hdone : ∀ r ∈ done ++ [ref], (e.discard ref).Gone r := by
      intro r hr
      by_cases hne : r = ref
      · exact hne ▸ hnow
      · exact (hgone r (by simpa [hne] using hr)).discard h.valid hb hne
    have hlisted : ∀ r ∈ refs, ∃ b, (e.discard ref).Lists m r b := by
      intro r hr
      obtain ⟨c, hc⟩ := hrest r hr
      obtain ⟨c', hc', -⟩ := hpaging.lists hc
      exact ⟨c', hc'⟩
    obtain ⟨hpaging', hreg', hp', hgone', hothers⟩ := ih (done ++ [ref]) (e.discard ref)
      (hpaging.tidy ht) hlisted hreg (hP e ref b ht hl hp) hdone
    refine ⟨hpaging.trans hpaging', hreg', hp', by simpa using hgone', fun r hr => ?_⟩
    rw [List.mem_cons, not_or] at hr
    exact (hothers r hr.2).trans (by rw [blocks_discard hb, List.getElem?_set_ne (Ne.symm hr.1)])

/-- A map that lists no blocks any more. -/
theorem retains_unlist (ht : e.Tidy) (hm : e.maps[m]? = some state)
    (hmaps : e'.maps = e.maps.set m { state with directory := [] })
    (hstores : e'.stores.length = e.stores.length)
    (hblocks : ∀ i ≠ m, ∀ (r : BlockRef) (b : Block K V), e.Lists i r b → e'.blocks[r]? = some b) :
    e'.Tidy ∧ ∀ i (r : BlockRef) (b : Block K V), e'.Lists i r b ↔ i ≠ m ∧ e.Lists i r b := by
  obtain ⟨hlt, -⟩ := List.getElem?_eq_some_iff.1 hm
  have hmap : e'.maps[m]? = some { state with directory := [] } := by
    rw [hmaps, List.getElem?_set_self hlt]
  have hothers (i : Nat) (hi : i ≠ m) : e'.maps[i]? = e.maps[i]? := by
    rw [hmaps, List.getElem?_set_ne hi.symm]
  refine ⟨ht.of_map hothers hstores hblocks fun st hi => ?_,
    fun i r b => ⟨fun hl => ?_, fun ⟨hne, hl⟩ => ?_⟩⟩
  · obtain rfl := Option.some.inj (hmap.symm.trans hi)
    have hlisting := ht m state hm
    exact ⟨hlisting.owner, hstores.symm ▸ hlisting.store, by simp, by simp, by simp⟩
  · obtain ⟨st, hi, hr, hb⟩ := hl
    by_cases hne : i = m
    · subst hne
      obtain rfl := Option.some.inj (hmap.symm.trans hi)
      simp [Directory.refs] at hr
    · have hi' := (hothers i hne).symm.trans hi
      obtain ⟨c, hc⟩ := ht.exists_lists hi' hr
      obtain rfl : c = b := Option.some.inj ((hblocks i hne r c hc).symm.trans hb)
      exact ⟨hne, hc⟩
  · obtain ⟨st, hi, hr, hb⟩ := id hl
    exact ⟨st, (hothers i hne).trans hi, hr, hblocks i hne r b hl⟩

theorem foldl_release (refs : List BlockRef) (e : Engine K V) : ∃ blocks,
    refs.foldl release e = { e with blocks } ∧ ∀ r : BlockRef, blocks[r]? =
      (e.blocks[r]?).map fun b => if r ∈ refs then { b with released := true } else b := by
  induction refs generalizing e with
  | nil => exact ⟨e.blocks, rfl, fun r => by simp⟩
  | cons ref refs ih =>
    obtain ⟨blocks, heq, hblocks⟩ := ih (e.release ref)
    refine ⟨blocks, heq, fun r => ?_⟩
    rw [hblocks, release]
    simp only [List.getElem?_modify, List.mem_cons, Option.map_eq_map, Option.map_map]
    congr 1
    funext b
    by_cases hr : ref = r
    · by_cases hmem : r ∈ refs <;> simp [hr, hmem]
    · simp [hr, Ne.symm hr]

/-- A map that gives up all blocks lists none, and the other maps stay. -/
theorem maps_give_up (hm : e.maps[m]? = some state) (he : e' = e.clear m ∨ e' = e.drop m) :
    e'.maps = e.maps.set m { state with directory := [] } := by
  have hclear : (e.clear m).maps = e.maps.set m { state with directory := [] } := by
    have hdiscard : Confined state.directory.refs e (state.directory.refs.foldl discard e) :=
      confined_foldl (fun e ref href => confined_discard href e) e
    rw [clear, hm]
    exact congrArg (·.set m { state with directory := [] }) hdiscard.maps
  rcases he with rfl | rfl
  · exact hclear
  · have hrelease : Confined state.directory.refs (e.clear m)
        (state.directory.refs.foldl release (e.clear m)) :=
      confined_foldl (fun e ref href => confined_release href e) _
    rw [drop, hm]
    exact hrelease.maps.trans hclear

/-- A map that gives up all blocks touches no other blocks. -/
theorem confined_give_up (hm : e.maps[m]? = some state) (he : e' = e.clear m ∨ e' = e.drop m) :
    e'.stores = e.stores ∧ e'.volume = e.volume ∧ e.events <:+ e'.events ∧
      ∀ r ∉ state.directory.refs, e'.blocks[r]? = e.blocks[r]? := by
  have hdiscard : Confined state.directory.refs e (state.directory.refs.foldl discard e) :=
    confined_foldl (fun e ref href => confined_discard href e) e
  have hclear : (e.clear m).stores = e.stores ∧ (e.clear m).volume = e.volume ∧
      e.events <:+ (e.clear m).events ∧ ∀ r ∉ state.directory.refs,
        (e.clear m).blocks[r]? = e.blocks[r]? := by
    rw [clear, hm]
    exact ⟨hdiscard.stores, hdiscard.volume, hdiscard.events.trans (List.suffix_cons _ _),
      hdiscard.blocks⟩
  rcases he with rfl | rfl
  · exact hclear
  · obtain ⟨hstores, hvolume, hevents, hblocks⟩ := hclear
    have hrelease : Confined state.directory.refs (e.clear m)
        (state.directory.refs.foldl release (e.clear m)) :=
      confined_foldl (fun e ref href => confined_release href e) _
    rw [drop, hm]
    exact ⟨hrelease.stores.trans hstores, hrelease.volume.trans hvolume,
      hevents.trans hrelease.events, fun r hr => (hrelease.blocks r hr).trans (hblocks r hr)⟩

/-- A block that is given up loses its entries and nothing else that is read. -/
theorem blocks_give_up (hm : e.maps[m]? = some state) (he : e' = e.clear m ∨ e' = e.drop m)
    (href : ref ∈ state.directory.refs) (hb : e.blocks[ref]? = some b) :
    ∃ released, e'.blocks[ref]? = some { b.forgotten with released } := by
  have hclear : (e.clear m).blocks[ref]? = some b.forgotten := by
    have hdiscard := getElem?_blocks_foldl_discard state.directory.refs ref e
    rw [hb, Option.map_some, if_pos href] at hdiscard
    rw [clear, hm]
    exact hdiscard
  rcases he with rfl | rfl
  · exact ⟨_, hclear⟩
  · obtain ⟨blocks, heq, hblocks⟩ := foldl_release state.directory.refs (e.clear m)
    have hdrop : e.drop m = { e.clear m with blocks } := by rw [drop, hm, ← heq]
    refine ⟨true, ?_⟩
    rw [hdrop]
    show blocks[ref]? = _
    rw [hblocks, hclear, Option.map_some, if_pos href]

theorem tidy_give_up (ht : e.Tidy) (hm : e.maps[m]? = some state)
    (he : e' = e.clear m ∨ e' = e.drop m) : e'.Tidy ∧ e'.stores.length = e.stores.length ∧
      ∀ i (r : BlockRef) (b : Block K V), e'.Lists i r b ↔ i ≠ m ∧ e.Lists i r b := by
  obtain ⟨hstores, -, -, hblocks⟩ := confined_give_up hm he
  have hlength := congrArg List.length hstores
  obtain ⟨htidy, hlists⟩ := retains_unlist ht hm (maps_give_up hm he) hlength fun i hi r b hl => by
    refine (hblocks r fun hr => ?_).trans hl.blocks_eq
    obtain ⟨c, hc⟩ := ht.exists_lists hm hr
    exact hi (ht.eq_of_lists hl hc).1
  exact ⟨htidy, hlength, hlists⟩

/-- What comes of giving up all blocks of a map: up to `e₁` they leave memory and their policy, and
then they are not listed any more. -/
theorem give_up_cases {P : Engine K V → Prop}
    (hP : ∀ (e : Engine K V) (ref : BlockRef) (b : Block K V), e.Tidy → e.Lists m ref b → P e →
      P (e.discard ref))
    (ht : e.Tidy) (hm : e.maps[m]? = some state) (h : Registered capacities e) (hp : P e)
    (he : e' = e.clear m ∨ e' = e.drop m) :
    ∃ e₁, Paging e e₁ ∧ Registered capacities e₁ ∧ P e₁ ∧ e'.policies = e₁.policies ∧
      e'.stores = e₁.stores ∧ e'.events = .noticed .mapCleared :: e₁.events ∧ e'.scans = e.scans ∧
      (∀ r ∉ state.directory.refs, e₁.blocks[r]? = e.blocks[r]? ∧ e'.blocks[r]? = e.blocks[r]?) ∧
      ∀ r ∈ state.directory.refs, e₁.Gone r ∧ e'.Gone r := by
  obtain ⟨hpaging, hreg, hp', hgone, hothers⟩ := foldl_discard hP ht
    (fun ref hr => ht.exists_lists hm hr) h hp
  have hscans : (state.directory.refs.foldl discard e).scans = e.scans := by
    have hclear := (extends_clear m e).scans
    rwa [clear, hm] at hclear
  have hclear : e.clear m = ((state.directory.refs.foldl discard e).setMap m
      { state with directory := [] }).notify .mapCleared := by rw [clear, hm]
  rcases he with rfl | rfl
  · rw [hclear]
    exact ⟨_, hpaging, hreg, hp', rfl, rfl, rfl, hscans,
      fun r hr => ⟨hothers r hr, hothers r hr⟩,
      fun r hr => ⟨hgone r hr, (hgone r hr).block, (hgone r hr).untracked⟩⟩
  · obtain ⟨blocks, heq, hblocks⟩ := foldl_release state.directory.refs (e.clear m)
    have hdrop : e.drop m = { e.clear m with blocks } := by rw [drop, hm, ← heq]
    rw [hclear] at hblocks hdrop
    rw [hdrop]
    refine ⟨_, hpaging, hreg, hp', rfl, rfl, rfl, hscans,
      fun r hr => ⟨hothers r hr, ?_⟩,
      fun r hr => ⟨hgone r hr, fun b hb => ?_, (hgone r hr).untracked⟩⟩
    · show blocks[r]? = _
      rw [hblocks]
      simpa [hr, notify, record, setMap] using hothers r hr
    · have hb' : blocks[r]? = some b := hb
      rw [hblocks] at hb'
      obtain ⟨c, hc, rfl⟩ := Option.map_eq_some_iff.1 hb'
      have hc' := (hgone r hr).block c hc
      split <;> exact hc'

/-- Giving up all blocks of a map keeps the policies to pages of blocks that are still listed. -/
theorem registered_give_up (ht : e.Tidy) (hm : e.maps[m]? = some state)
    (h : Registered capacities e) (he : e' = e.clear m ∨ e' = e.drop m) :
    Registered capacities e' := by
  obtain ⟨e₁, hpaging, hreg, -, hpolicies, hstores, -, -, hothers, hgone⟩ :=
    give_up_cases (P := fun _ => True) (fun _ _ _ _ _ _ => trivial) ht hm h trivial he
  obtain ⟨htidy, -, hlists⟩ := tidy_give_up ht hm he
  refine ⟨hpolicies ▸ hreg.capacities, hpolicies ▸ hreg.valid, fun i q hq page hpage => ?_⟩
  rw [hpolicies] at hq
  obtain ⟨m', b, hl, hpolicy, heq⟩ := hreg.known i q hq page hpage
  obtain ⟨state', hm', hr, hb⟩ := hl
  have hne : m' ≠ m := fun hne => by
    subst hne
    obtain rfl : state = state' := Option.some.inj (hm.symm.trans (hpaging.maps ▸ hm'))
    exact (hgone _ hr).1.untracked i q hq page hpage rfl
  obtain ⟨c, hc⟩ := ht.exists_lists (hpaging.maps ▸ hm') hr
  have hout : page.owner ∉ state.directory.refs := fun hmem => by
    obtain ⟨d, hd⟩ := ht.exists_lists hm hmem
    exact hne (ht.eq_of_lists hc hd).1
  obtain rfl : c = b := Option.some.inj (hc.blocks_eq.symm.trans ((hothers _ hout).1.symm.trans hb))
  exact ⟨m', c, (hlists m' _ c).2 ⟨hne, hc⟩, hpolicy, heq⟩

/-! ### Adding a map -/

theorem tidy_addMap {sizing : Sizing} {policy store : Nat} (ht : e.Tidy)
    (hstore : store < e.stores.length) (he : e.addMap sizing policy store = .ok e') :
    e'.Tidy ∧ e'.stores = e.stores ∧ e'.policies = e.policies ∧
      ∀ i (r : BlockRef) (b : Block K V), e'.Lists i r b ↔ e.Lists i r b := by
  obtain ⟨budget, -, rfl⟩ := addMap_eq_ok he
  set state : MapState K := { home :=
    ⟨e.maps.length + 1, policy, store, sizing.entryOverhead, budget⟩ } with hstate
  set e' : Engine K V := { e with maps := e.maps ++ [state] } with he'
  have hmaps (i : Nat) : e'.maps[i]? = if i = e.maps.length then some state else e.maps[i]? :=
    getElem?_append_singleton _ _ _
  have hlists (i : Nat) (r : BlockRef) (b : Block K V) : e'.Lists i r b ↔ e.Lists i r b := by
    unfold Lists
    rw [hmaps]
    split
    · rename_i hi
      subst hi
      simp [hstate, Directory.refs]
    · rfl
  refine ⟨ht.of_map (m := e.maps.length) (fun i hi => by rw [hmaps, if_neg hi]) rfl
    (fun _ _ _ _ hl => hl.blocks_eq) fun st hi => ?_, rfl, rfl, hlists⟩
  rw [hmaps, if_pos rfl] at hi
  obtain rfl := Option.some.inj hi
  exact ⟨by rw [hstate], hstore, by simp [hstate], by simp [hstate], by simp [hstate]⟩

end GivingUp

/-! ### Listing the blocks of a snapshot -/

section Restore

omit [Wire K] [Wire V] [LE K] [DecidableLE K] in
theorem id_start_ofInfo (home : Home) (info : BlockInfo K) :
    (Block.ofInfo (V := V) home info).start.id = info.id := by
  unfold Block.ofInfo
  split
  · rename_i hzero
    exact hzero.symm
  · rfl

omit [Wire K] [Wire V] in
/-- After a described block was listed, what is listed is this block or was listed before. -/
theorem mem_insert_ofInfo {home : Home} {info : BlockInfo K} {directory : Directory K}
    {new : BlockRef} (hheads : ∀ x ∈ directory, x.1.id = 0 → x.1 = .head) {x : Start K × BlockRef}
    (hx : x ∈ Directory.insert (Block.ofInfo (V := V) home info).start new directory) :
    x.1.id = info.id ∧ x.2 = new ∧ (x.1.id = 0 → x.1 = .head) ∨ x ∈ directory := by
  have hid := id_start_ofInfo (V := V) home info
  rcases Directory.mem_insert hx with hx | ⟨href, hsame, hstart | ⟨y, hy, hyx⟩⟩
  · exact Or.inr hx
  · refine Or.inl ⟨hsame.trans hid, href, fun hzero => ?_⟩
    rw [hstart, hid] at hzero
    simp [hstart, Block.ofInfo, hzero]
  · exact Or.inl ⟨hsame.trans hid, href, hyx ▸ hheads y hy⟩

/-- All blocks that map `m` lists are out of memory and have no successors. -/
def Bare (m : Nat) (e : Engine K V) : Prop :=
  ∀ (r : BlockRef) (b : Block K V),
    e.Lists m r b → b.entries = none ∧ b.tracked = false ∧ b.next = none

/-- What listing blocks of a snapshot in map `m` does. -/
structure Restores (m : Nat) (e e' : Engine K V) : Prop where
  tidy : e'.Tidy
  bare : e'.Bare m
  others : ∀ i ≠ m, e'.maps[i]? = e.maps[i]?
  homes : e'.maps.map (·.home) = e.maps.map (·.home)
  policies : e'.policies = e.policies
  stores : e'.stores = e.stores
  scans : e'.scans = e.scans
  kept : ∀ (r : BlockRef) (b : Block K V), e.blocks[r]? = some b → e'.blocks[r]? = some b
  new : ∀ (r : BlockRef) (b : Block K V), e'.blocks[r]? = some b →
    e.blocks[r]? = some b ∨ b.entries = none ∧ b.tracked = false
  events : ∃ added, e'.events = added ++ e.events ∧ ∀ event ∈ added, event.isReport = false

omit [Wire K] [Wire V] [LE K] [DecidableLE K] in
theorem Restores.refl (ht : e.Tidy) (hbare : e.Bare m) : Restores m e e :=
  ⟨ht, hbare, fun _ _ => rfl, rfl, rfl, rfl, rfl, fun _ _ hb => hb, fun _ _ hb => Or.inl hb, [],
    rfl, by simp⟩

omit [Wire K] [Wire V] [LE K] [DecidableLE K] in
theorem Restores.trans (h : Restores m e e') (h' : Restores m e' e'') : Restores m e e'' where
  tidy := h'.tidy
  bare := h'.bare
  others i hi := (h'.others i hi).trans (h.others i hi)
  homes := h'.homes.trans h.homes
  policies := h'.policies.trans h.policies
  stores := h'.stores.trans h.stores
  scans := h'.scans.trans h.scans
  kept r b hb := h'.kept r b (h.kept r b hb)
  new r b hb := (h'.new r b hb).elim (h.new r b) Or.inr
  events := by
    obtain ⟨added, hevents, hadded⟩ := h.events
    obtain ⟨added', hevents', hadded'⟩ := h'.events
    refine ⟨added' ++ added, ?_, ?_⟩
    · rw [hevents', hevents, List.append_assoc]
    · rw [List.forall_mem_append]
      exact ⟨hadded', hadded⟩

omit [Wire K] [Wire V] [LE K] [DecidableLE K] in
/-- The other maps list the same blocks. -/
theorem Restores.lists (h : Restores m e e') (ht : e.Tidy) {i : Nat} (hi : i ≠ m) {r : BlockRef}
    {b : Block K V} : e'.Lists i r b ↔ e.Lists i r b := by
  constructor
  · rintro ⟨state, hm, hr, hb⟩
    have hm' := (h.others i hi).symm.trans hm
    obtain ⟨c, hc⟩ := ht.exists_lists hm' hr
    obtain rfl : c = b := Option.some.inj ((h.kept r c hc.blocks_eq).symm.trans hb)
    exact hc
  · rintro ⟨state, hm, hr, hb⟩
    exact ⟨state, (h.others i hi).trans hm, hr, h.kept r b hb⟩

section Block

omit [Wire K] [Wire V]

/-- A block is listed as it is described. -/
theorem restoreBlock_eq (hm : e.maps[m]? = some state) (info : BlockInfo K) :
    restoreBlock m e info = (e.notify (.blockRestored info.id)).enlist m state
      (.ofInfo state.home info) (max state.lastId info.id) := by
  rw [restoreBlock, hm]
  rfl

/-- The blocks after one was listed from its description. -/
theorem getElem?_restoreBlock (hm : e.maps[m]? = some state) (info : BlockInfo K) (r : BlockRef) :
    (restoreBlock m e info).blocks[r]? =
      if r = e.blocks.length then some (Block.ofInfo state.home info) else e.blocks[r]? := by
  rw [restoreBlock_eq hm]
  exact blocks_enlist r

/-- What is listed after a block was listed from its description, but for that block, was listed
before. -/
theorem lists_of_restoreBlock {info : BlockInfo K} {i : Nat} (hm : e.maps[m]? = some state)
    (hl : (restoreBlock m e info).Lists i ref b) :
    ref = e.blocks.length ∧ b = .ofInfo state.home info ∨ e.Lists i ref b := by
  rw [restoreBlock_eq hm] at hl
  exact lists_of_enlist (e := e.notify (.blockRestored info.id)) hm hl

/-- A map lists the block that is described besides those that it listed, none of which has a
successor. -/
theorem tidy_restoreBlock (ht : e.Tidy) (hbare : e.Bare m) (hm : e.maps[m]? = some state)
    (info : BlockInfo K) : (restoreBlock m e info).Tidy := by
  set b : Block K V := Block.ofInfo state.home info with hb
  set e₀ : Engine K V := e.notify (.blockRestored info.id)
  have hm₀ : e₀.maps[m]? = some state := hm
  have hmap := maps_enlist hm₀ b (max state.lastId info.id)
  have hlisting := ht m state hm
  rw [restoreBlock_eq hm]
  refine ht.of_map (fun i hi => maps_enlist_of_ne hi) rfl
    (fun i _ r c hc => blocks_enlist_of_some hc.blocks_eq) fun st hi => ?_
  obtain rfl := Option.some.inj (hmap.symm.trans hi)
  refine ⟨hlisting.owner, hlisting.store, fun x hx => ?_, fun x hx => ?_, fun x hx => ?_⟩ <;>
    rcases mem_insert_ofInfo hlisting.heads hx with ⟨hid, href, hhead⟩ | hx
  · exact hhead
  · exact hlisting.heads x hx
  · exact hid ▸ Nat.le_max_right _ _
  · exact (hlisting.ids x hx).trans (Nat.le_max_left _ _)
  · refine ⟨b, ?_, rfl, hid.symm, rfl, fun next hn => by simp [hb, Block.ofInfo] at hn⟩
    rw [href]
    exact blocks_enlist_new
  · obtain ⟨c, hc, hhome, hcid, hreleased, -⟩ := hlisting.blocks x hx
    obtain ⟨-, -, hnext⟩ := hbare x.2 c ⟨state, hm, List.mem_map_of_mem hx, hc⟩
    exact ⟨c, blocks_enlist_of_some hc, hhome, hcid, hreleased,
      fun next hn => by simp [hnext] at hn⟩

theorem restores_restoreBlock (ht : e.Tidy) (hbare : e.Bare m) (info : BlockInfo K) :
    Restores m e (restoreBlock m e info) := by
  cases hm : e.maps[m]? with
  | none =>
    rw [restoreBlock, hm]
    exact .refl ht hbare
  | some state =>
    have hm₀ : (e.notify (.blockRestored info.id)).maps[m]? = some state := hm
    have hothers (i : Nat) (hi : i ≠ m) : (restoreBlock m e info).maps[i]? = e.maps[i]? := by
      rw [restoreBlock_eq hm]
      exact maps_enlist_of_ne hi
    refine ⟨tidy_restoreBlock ht hbare hm info, fun r c hc => ?_, hothers, ?_,
      by rw [restoreBlock_eq hm]; rfl, by rw [restoreBlock_eq hm]; rfl,
      by rw [restoreBlock_eq hm]; rfl, fun r c hc => ?_, fun r c hc => ?_, ?_⟩
    · rcases lists_of_restoreBlock hm hc with ⟨-, rfl⟩ | hl
      · exact ⟨rfl, rfl, rfl⟩
      · exact hbare r c hl
    · rw [restoreBlock_eq hm]
      exact homes_eq_of_map (fun i hi => maps_enlist_of_ne hi) hm (maps_enlist hm₀ _ _) rfl
    · rw [restoreBlock_eq hm]
      exact blocks_enlist_of_some hc
    · rw [getElem?_restoreBlock hm] at hc
      split at hc
      · obtain rfl := Option.some.inj hc
        exact Or.inr ⟨rfl, rfl⟩
      · exact Or.inl hc
    · rw [restoreBlock_eq hm]
      exact ⟨[_], rfl, by simp [Event.isReport]⟩

end Block

omit [Wire K] [Wire V] in
theorem restores_foldl_restoreBlock (infos : List (BlockInfo K)) (ht : e.Tidy) (hbare : e.Bare m) :
    Restores m e (infos.foldl (restoreBlock m) e) := by
  induction infos generalizing e with
  | nil => exact .refl ht hbare
  | cons info infos ih =>
    have hfirst := restores_restoreBlock ht hbare info
    exact hfirst.trans (ih hfirst.tidy hfirst.bare)

omit [Wire K] [Wire V] [LE K] [DecidableLE K] in
/-- Listing blocks of a snapshot does not matter to the policies, if none of them tracks a page of
the map. -/
theorem Restores.registered (h : Restores m e e') (ht : e.Tidy) (hreg : Registered capacities e)
    (haway : ∀ (i : Nat) q, e.policies[i]? = some q →
      ∀ page ∈ q.pages, ∀ b, ¬ e.Lists m page.owner b) :
    Registered capacities e' := by
  refine ⟨h.policies ▸ hreg.capacities, h.policies ▸ hreg.valid, fun i q hq page hpage => ?_⟩
  rw [h.policies] at hq
  obtain ⟨m', b, hl, hrest⟩ := hreg.known i q hq page hpage
  have hne : m' ≠ m := fun hne => haway i q hq page hpage b (hne ▸ hl)
  exact ⟨m', b, (h.lists ht hne).2 hl, hrest⟩

omit [Wire K] [Wire V] in
/-- A map that is restored gives up its blocks, and then lists those of the snapshot. -/
theorem restores_restore (snapshot : Snapshot K) (ht : e.Tidy) (hm : e.maps[m]? = some state) :
    (∀ i (r : BlockRef) (b : Block K V),
      ((e.notify (.mapRestored snapshot.blocks.length)).clear m).Lists i r b ↔
        i ≠ m ∧ e.Lists i r b) ∧
    ((e.notify (.mapRestored snapshot.blocks.length)).clear m).Tidy ∧
    (e.restore m snapshot).stores.length = e.stores.length ∧
    Restores m ((e.notify (.mapRestored snapshot.blocks.length)).clear m)
      (e.restore m snapshot) := by
  set e₀ := e.notify (.mapRestored snapshot.blocks.length) with he₀
  have hpaging : Paging e e₀ := (quiet_notify 0 _ e).toPaging
  obtain ⟨ht₁, hstores, hlists⟩ := tidy_give_up (hpaging.tidy ht) (hm : e₀.maps[m]? = some state)
    (Or.inl rfl)
  have hrestores := restores_foldl_restoreBlock snapshot.blocks ht₁ fun r b hl =>
    absurd rfl ((hlists m r b).1 hl).1
  exact ⟨hlists, ht₁, (congrArg List.length hrestores.stores).trans hstores, hrestores⟩

omit [Wire K] [Wire V] in
/-- Restoring a map keeps the policies to pages of listed blocks. -/
theorem registered_restore (snapshot : Snapshot K) (ht : e.Tidy) (hm : e.maps[m]? = some state)
    (h : Registered capacities e) : Registered capacities (e.restore m snapshot) := by
  have hpaging : Paging e (e.notify (.mapRestored snapshot.blocks.length)) :=
    (quiet_notify 0 _ e).toPaging
  have hreg :=
    registered_give_up (hpaging.tidy ht) hm (h.of_policies rfl (hpaging.retains ht m).lists)
    (Or.inl rfl)
  obtain ⟨hlists, ht₁, -, hrestores⟩ := restores_restore snapshot ht hm
  exact hrestores.registered ht₁ hreg fun i q _ page _ b hl => ((hlists m _ b).1 hl).1 rfl

end Restore

end Engine

end PagedMap
