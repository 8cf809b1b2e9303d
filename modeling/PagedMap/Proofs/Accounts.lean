import Mathlib
import PagedMap.Proofs.Registry

/-!
# What policies know of blocks in memory

The blocks of a map have different numbers, and the policy of the map tracks exactly the pages of
the blocks that count as tracked, but for those that it is still to be told of (`Engine.Accounted`).
Every tracked block is in memory.  A block that is in memory and not tracked was to leave memory,
could not be written, and was not used since (`Engine.Stranded`).

Every step on behalf of a map keeps the accounts (`Engine.Steps.accounted`).  If a policy names a
page that has to leave, the block of this page is pending until it left memory
(`Engine.Accounted.evict`).
-/

namespace PagedMap

variable {K V : Type}

/-- Whether a policy is told of a use of the block under the reference. -/
def Event.isUse (ref : BlockRef) : Event K V → Bool
  | reported .add _ page | reported .hit _ page => page.owner == ref
  | _ => false

theorem Event.isUse_of_not_isReport {event : Event K V} (h : event.isReport = false)
    (ref : BlockRef) : event.isUse ref = false := by
  cases event <;> first | rfl | simp [isReport] at h

namespace Engine

/-- The block was to leave memory and could not be written, and its policy was told of no use
since. -/
def Stranded (e : Engine K V) (ref : BlockRef) (b : Block K V) : Prop :=
  ∃ es c later earlier, b.entries = some es ∧
    e.events = later ++ .noticed (.evictionFailed (b.pageOf ref).key (.storage c)) ::
      .pageCreated b.home.store es (.error c) :: earlier ∧
    ∀ event ∈ later, event.isUse ref = false

/-- What policy `i` tracks while blocks of `p` do not count yet. -/
def Booked (e : Engine K V) (p : Finset BlockRef) (i : Nat) (page : Page BlockRef) : Prop :=
  ∃ m b, e.Lists m page.owner b ∧ b.tracked = true ∧ page.owner ∉ p ∧ b.home.policy = i ∧
    page = b.pageOf page.owner

/-- The accounts are right, but for the blocks of `p` that policies are still to be told of. -/
structure Accounted (p : Finset BlockRef) (e : Engine K V) : Prop where
  ids : ∀ (m : Nat) state, e.maps[m]? = some state → (state.directory.map (·.1.id)).Nodup
  booked : ∀ (i : Nat) q, e.policies[i]? = some q → ∀ page, page ∈ q.pages ↔ e.Booked p i page
  pending : ∀ ref ∈ p, ∀ m b, e.Lists m ref b → b.tracked = true
  loaded : ∀ m ref b, e.Lists m ref b → b.tracked = true → b.entries.isSome = true
  stranded : ∀ m ref b, e.Lists m ref b → b.entries.isSome = true → b.tracked = false →
    e.Stranded ref b
  away : ∀ (ref : BlockRef) b, e.blocks[ref]? = some b → (∀ m, ¬ e.Lists m ref b) →
    b.entries = none ∧ b.tracked = false

variable {e e' : Engine K V} {m i : Nat} {state : MapState K} {ref : BlockRef} {b b' : Block K V}
  {p p' : Finset BlockRef} {capacities : List Nat} {page : Page BlockRef}

/-- A stranded block stays so until it is used. -/
theorem Stranded.mono (added : List (Event K V)) (h : e.Stranded ref b)
    (hevents : e'.events = added ++ e.events) (hadded : ∀ event ∈ added, event.isUse ref = false)
    (hentries : b'.entries = b.entries) (hhome : b'.home = b.home) (hid : b'.id = b.id) :
    e'.Stranded ref b' := by
  obtain ⟨es, c, later, earlier, hes, hsplit, hlater⟩ := h
  have hpage : b'.pageOf ref = b.pageOf ref := by rw [Block.pageOf, Block.pageOf, hhome, hid]
  refine ⟨es, c, added ++ later, earlier, hentries.trans hes, ?_, ?_⟩
  · rw [hevents, hsplit, hpage, hhome, List.append_assoc]
  · rw [List.forall_mem_append]
    exact ⟨hadded, hlater⟩

/-- Blocks of one map with the same number are the same block. -/
theorem Accounted.eq_of_key (h : Accounted p e) (ht : e.Tidy) {m' : Nat} {ref' : BlockRef}
    (hl : e.Lists m ref b) (hl' : e.Lists m' ref' b')
    (hkey : (b.pageOf ref).key = (b'.pageOf ref').key) : m = m' ∧ ref = ref' ∧ b = b' := by
  obtain ⟨howner, hid⟩ := PageKey.mk.inj hkey
  obtain ⟨state, start, hm, hmem, hb, -, hown, -, hstart, -⟩ := ht.of_lists hl
  obtain ⟨state', start', hm', hmem', hb', -, hown', -, hstart', -⟩ := ht.of_lists hl'
  obtain rfl : m = m' := by omega
  obtain rfl : state = state' := Option.some.inj (hm.symm.trans hm')
  have hsame := List.inj_on_of_nodup_map (h.ids m state hm) hmem hmem'
    (hstart.symm.trans (hid.trans hstart'))
  obtain ⟨-, rfl⟩ := Prod.mk.inj hsame
  exact ⟨rfl, rfl, Option.some.inj (hb.symm.trans hb')⟩

/-- A pending block is one that its policy does not know. -/
theorem Accounted.key_ne (h : Accounted p e) (ht : e.Tidy) (hl : e.Lists m ref b) (hp : ref ∈ p)
    {q : Policy BlockRef} (hq : e.policies[i]? = some q) :
    ∀ x ∈ q.pages, x.key ≠ (b.pageOf ref).key := by
  intro x hx hkey
  obtain ⟨m', b', hl', -, hxp, -, heq⟩ := (h.booked i q hq x).1 hx
  have hkey' := (congrArg (·.key) heq).symm.trans hkey
  obtain ⟨-, hsame, -⟩ := h.eq_of_key ht hl hl' hkey'.symm
  exact hxp (hsame ▸ hp)

/-! ### Steps that no policy is told of -/

/-- If one listed block is replaced, the new one is listed in its place. -/
theorem lists_exchange (ht : e.Tidy) (hl : e.Lists m ref b) (hmaps : e'.maps = e.maps)
    (hothers : ∀ r ≠ ref, e'.blocks[r]? = e.blocks[r]?) (hb' : e'.blocks[ref]? = some b')
    {r : BlockRef} {c : Block K V} :
    e'.Lists i r c ↔ if r = ref then i = m ∧ c = b' else e.Lists i r c := by
  unfold Lists
  rw [hmaps]
  split
  · rename_i hr
    subst hr
    rw [hb']
    refine ⟨fun ⟨st, hi, hr, hc⟩ => ?_, fun ⟨hi, hc⟩ => ?_⟩
    · obtain ⟨d, hd⟩ := ht.exists_lists hi hr
      exact ⟨(ht.eq_of_lists hd hl).1, (Option.some.inj hc).symm⟩
    · obtain ⟨st, hm, hr, -⟩ := id hl
      exact ⟨st, hi ▸ hm, hr, congrArg some hc.symm⟩
  · rename_i hr
    rw [hothers r hr]

/-- One listed block may be replaced, if the blocks that count stay the same. -/
theorem Accounted.exchange (h : Accounted p e) (ht : e.Tidy) (hl : e.Lists m ref b)
    (hmaps : e'.maps = e.maps) (hpolicies : e'.policies = e.policies)
    (hothers : ∀ r ≠ ref, e'.blocks[r]? = e.blocks[r]?) (hb' : e'.blocks[ref]? = some b')
    (hhome : b'.home = b.home) (hid : b'.id = b.id)
    (hevents : ∃ added, e'.events = added ++ e.events ∧ ∀ event ∈ added, event.isReport = false)
    (hp : ∀ r ≠ ref, r ∈ p' ↔ r ∈ p)
    (hcount : b'.tracked = true ∧ ref ∉ p' ↔ b.tracked = true ∧ ref ∉ p)
    (hpending : ref ∈ p' → b'.tracked = true)
    (hloaded : b'.tracked = true → b'.entries.isSome = true)
    (hstranded : b'.entries.isSome = true → b'.tracked = false → e'.Stranded ref b') :
    Accounted p' e' := by
  obtain ⟨added, hevents, hadded⟩ := hevents
  have hlists (i : Nat) (r : BlockRef) (c : Block K V) :
      e'.Lists i r c ↔ if r = ref then i = m ∧ c = b' else e.Lists i r c :=
    lists_exchange ht hl hmaps hothers hb'
  refine ⟨fun i st hi => h.ids i st (hmaps ▸ hi), fun i q hq x => ?_, fun r hr i c hc => ?_,
    fun i r c hc htracked => ?_, fun i r c hc hes htracked => ?_, fun r c hc haway => ?_⟩
  · -- the pages of other blocks count as before, and by `hcount` so does that of the block
    rw [h.booked i q (hpolicies ▸ hq) x]
    unfold Booked
    simp only [hlists]
    by_cases hx : x.owner = ref
    · simp only [hx, if_true]
      have hpage : b'.pageOf ref = b.pageOf ref := by rw [Block.pageOf, Block.pageOf, hhome, hid]
      constructor
      · rintro ⟨i', c, hc, htracked, hxp, hpolicy, heq⟩
        obtain ⟨rfl, rfl⟩ := ht.eq_of_lists hl hc
        obtain ⟨htracked', hxp'⟩ := hcount.2 ⟨htracked, hxp⟩
        exact ⟨m, b', ⟨rfl, rfl⟩, htracked', hxp', hhome ▸ hpolicy, heq.trans hpage.symm⟩
      · rintro ⟨i', c, ⟨-, rfl⟩, htracked, hxp, hpolicy, heq⟩
        obtain ⟨htracked', hxp'⟩ := hcount.1 ⟨htracked, hxp⟩
        exact ⟨m, b, hl, htracked', hxp', hhome ▸ hpolicy, heq.trans hpage⟩
    · simp only [hx, if_false, hp _ hx]
  · rw [hlists] at hc
    split at hc
    · rename_i hr'
      exact hc.2 ▸ hpending (hr' ▸ hr)
    · rename_i hr'
      exact h.pending r ((hp r hr').1 hr) i c hc
  · rw [hlists] at hc
    split at hc
    · exact hc.2 ▸ hloaded (hc.2 ▸ htracked)
    · exact h.loaded i r c hc htracked
  · rw [hlists] at hc
    split at hc
    · rename_i hr'
      obtain ⟨-, rfl⟩ := hc
      exact hr' ▸ hstranded hes htracked
    · exact (h.stranded i r c hc hes htracked).mono added hevents
        (fun event hevent => Event.isUse_of_not_isReport (hadded event hevent) r) rfl rfl rfl
  · by_cases hr : r = ref
    · subst hr
      obtain rfl := Option.some.inj (hb'.symm.trans hc)
      exact absurd ((hlists m r b').2 (by simp)) (haway m)
    · refine h.away r c ((hothers r hr).symm.trans hc) fun i hi => haway i ?_
      rw [hlists, if_neg hr]
      exact hi

/-! ### Calls of a policy -/

theorem Accounted.rebook (added : List (Event K V)) (h : Accounted p e) (hmaps : e'.maps = e.maps)
    (hblocks : e'.blocks = e.blocks) (hevents : e'.events = added ++ e.events)
    (huse : ∀ m r c, e.Lists m r c → c.tracked = false → ∀ event ∈ added, event.isUse r = false)
    (hpending : ∀ r ∈ p', ∀ m c, e.Lists m r c → c.tracked = true)
    (hbooked : ∀ (i : Nat) q, e'.policies[i]? = some q → ∀ x, x ∈ q.pages ↔ e.Booked p' i x) :
    Accounted p' e' := by
  have hlists (i : Nat) (r : BlockRef) (c : Block K V) : e'.Lists i r c ↔ e.Lists i r c := by
    unfold Lists
    rw [hmaps, hblocks]
  refine ⟨fun i st hi => h.ids i st (hmaps ▸ hi), fun i q hq x => ?_,
    fun r hr i c hc => hpending r hr i c ((hlists i r c).1 hc),
    fun i r c hc => h.loaded i r c ((hlists i r c).1 hc), fun i r c hc hes htracked => ?_,
    fun r c hc haway => h.away r c (hblocks ▸ hc) fun i hi => haway i ((hlists i r c).2 hi)⟩
  · rw [hbooked i q hq x]
    unfold Booked
    simp only [hlists]
  · rw [hlists] at hc
    exact (h.stranded i r c hc hes htracked).mono added hevents (huse i r c hc htracked) rfl rfl rfl

/-- A step that leaves maps, blocks and policies and records no report. -/
theorem Accounted.mono (h : Accounted p e) (hmaps : e'.maps = e.maps)
    (hblocks : e'.blocks = e.blocks) (hpolicies : e'.policies = e.policies)
    (hevents : ∃ added, e'.events = added ++ e.events ∧ ∀ event ∈ added, event.isReport = false) :
    Accounted p e' := by
  obtain ⟨added, hevents, hadded⟩ := hevents
  exact h.rebook added hmaps hblocks hevents
    (fun _ r _ _ _ event hevent => Event.isUse_of_not_isReport (hadded event hevent) r) h.pending
    fun i q hq x => h.booked i q (hpolicies ▸ hq) x

theorem Booked.eq_of_owner (ht : e.Tidy) {i' : Nat} {page' : Page BlockRef} (h : e.Booked p i page)
    (h' : e.Booked p' i' page') (howner : page.owner = page'.owner) : i = i' ∧ page = page' := by
  obtain ⟨m, b, hl, -, -, hpolicy, heq⟩ := h
  obtain ⟨m', b', hl', -, -, hpolicy', heq'⟩ := h'
  obtain ⟨-, rfl⟩ := ht.eq_of_lists hl (howner ▸ hl')
  exact ⟨hpolicy.symm.trans hpolicy', by rw [heq, heq', howner]⟩

theorem booked_insert (r : BlockRef) :
    e.Booked (insert r p) i page ↔ e.Booked p i page ∧ page.owner ≠ r := by
  unfold Booked
  simp only [Finset.mem_insert, not_or]
  constructor
  · rintro ⟨m, b, hl, htracked, ⟨hne, hp⟩, hrest⟩
    exact ⟨⟨m, b, hl, htracked, hp, hrest⟩, hne⟩
  · rintro ⟨⟨m, b, hl, htracked, hp, hrest⟩, hne⟩
    exact ⟨m, b, hl, htracked, ⟨hne, hp⟩, hrest⟩

/-- A block that is tracked counts when it is not pending any more. -/
theorem booked_erase (ht : e.Tidy) (hl : e.Lists m ref b) (htracked : b.tracked = true) :
    e.Booked (p.erase ref) i page ↔
      e.Booked p i page ∨ b.home.policy = i ∧ page = b.pageOf ref := by
  constructor
  · rintro ⟨m', c, hc, htracked', hp, hpolicy, heq⟩
    by_cases howner : page.owner = ref
    · obtain ⟨-, rfl⟩ := ht.eq_of_lists hl (howner ▸ hc)
      exact Or.inr ⟨hpolicy, howner ▸ heq⟩
    · exact Or.inl ⟨m', c, hc, htracked', by simpa [howner] using hp, hpolicy, heq⟩
  · rintro (⟨m', c, hc, htracked', hp, hrest⟩ | ⟨hpolicy, rfl⟩)
    · exact ⟨m', c, hc, htracked', fun hmem => hp (Finset.mem_of_mem_erase hmem), hrest⟩
    · exact ⟨m, b, hl, htracked, Finset.notMem_erase _ _, hpolicy, rfl⟩

theorem blocks_hitPage (policy : Nat) (page : Page BlockRef) (e : Engine K V) :
    (e.hitPage policy page).blocks = e.blocks ∧
      (e.hitPage policy page).events = .reported .hit policy page :: e.events := by
  dsimp only [hitPage]
  split <;> exact ⟨rfl, rfl⟩

/-- What a policy is told of a tracked block is no use of a block that is not. -/
theorem isUse_reported (ht : e.Tidy) (hl : e.Lists m ref b) (htracked : b.tracked = true)
    (report : Report) (policy : Nat) {m' : Nat} {r : BlockRef} {c : Block K V} (hc : e.Lists m' r c)
    (hfalse : c.tracked = false) :
    ∀ event ∈ [Event.reported (K := K) (V := V) report policy (b.pageOf ref)],
      event.isUse r = false := by
  have hne : ref ≠ r := by
    rintro rfl
    obtain ⟨-, rfl⟩ := ht.eq_of_lists hl hc
    simp [htracked] at hfalse
  rw [List.forall_mem_singleton]
  cases report with
  | add => exact beq_eq_false_iff_ne.2 hne
  | hit => exact beq_eq_false_iff_ne.2 hne
  | remove => rfl

theorem Accounted.hit (h : Accounted p e) (ht : e.Tidy) (hl : e.Lists m ref b)
    (htracked : b.tracked = true) : Accounted p (e.hitPage b.home.policy (b.pageOf ref)) := by
  obtain ⟨hblocks, hevents⟩ := blocks_hitPage b.home.policy (b.pageOf ref) e
  refine h.rebook [_] (paging_hitPage _ _ _).maps hblocks hevents
    (fun m' r c hc => isUse_reported ht hl htracked _ _ hc) h.pending fun i q' hq' x => ?_
  rw [policies_hitPage, List.getElem?_modify] at hq'
  obtain ⟨q, hq, rfl⟩ := Option.map_eq_some_iff.1 hq'
  rw [← h.booked i q hq x]
  split
  · rw [q.pages_hit]
  · rfl

theorem getElem?_set_eq_some {α : Type} {xs : List α} {j i : Nat} {x y : α}
    (h : (xs.set j x)[i]? = some y) : j = i ∧ y = x ∨ j ≠ i ∧ xs[i]? = some y := by
  rw [List.getElem?_set] at h
  split at h
  · rename_i heq
    split at h
    · exact Or.inl ⟨heq, (Option.some.inj h).symm⟩
    · simp at h
  · rename_i hne
    exact Or.inr ⟨hne, h⟩

theorem Accounted.takeIn {q q' : Policy BlockRef} (h : Accounted p e) (ht : e.Tidy)
    (hreg : Registered capacities e) (hl : e.Lists m ref b) (hp : ref ∈ p)
    (hq : e.policies[b.home.policy]? = some q) (hadd : q.add (b.pageOf ref) = (q', none)) :
    Accounted (p.erase ref)
      ((e.record (.reported .add b.home.policy (b.pageOf ref))).setPolicy b.home.policy q') := by
  have htracked := h.pending ref hp m b hl
  have hpages {x : Page BlockRef} : x ∈ q'.pages ↔ x = b.pageOf ref ∨ x ∈ q.pages := by
    have hmem := Policy.mem_pages_add (x := x) (hreg.valid _ q hq) (h.key_ne ht hl hp hq)
    rw [hadd] at hmem
    simpa using hmem
  refine h.rebook [_] rfl rfl rfl (fun m' r c hc => isUse_reported ht hl htracked _ _ hc)
    (fun r hr => h.pending r (Finset.mem_of_mem_erase hr)) fun i q₁ hq₁ x => ?_
  rw [booked_erase ht hl htracked]
  rcases getElem?_set_eq_some hq₁ with ⟨rfl, rfl⟩ | ⟨hne, hq₁⟩
  · rw [hpages, h.booked _ q hq x]
    simp [or_comm]
  · rw [h.booked i q₁ hq₁ x]
    simp [hne]

/-- A full policy takes in the page of a pending block, and the block whose page has to leave is
pending. -/
theorem Accounted.exchangePages {q q' : Policy BlockRef} {victim : Page BlockRef}
    (h : Accounted p e) (ht : e.Tidy) (hreg : Registered capacities e) (hl : e.Lists m ref b)
    (hp : ref ∈ p) (hq : e.policies[b.home.policy]? = some q)
    (hadd : q.add (b.pageOf ref) = (q', some victim)) :
    Accounted (insert victim.owner (p.erase ref))
        ((e.record (.reported .add b.home.policy (b.pageOf ref))).setPolicy b.home.policy q') ∧
      e.Booked p b.home.policy victim := by
  have htracked := h.pending ref hp m b hl
  have hnew := h.key_ne ht hl hp hq
  have hpages {x : Page BlockRef} :
      x ∈ q'.pages ↔ (x = b.pageOf ref ∨ x ∈ q.pages) ∧ victim ≠ x := by
    have hmem := Policy.mem_pages_add (x := x) (hreg.valid _ q hq) hnew
    rw [hadd] at hmem
    simpa using hmem
  have hbooked (i : Nat) (x : Page BlockRef) : e.Booked (p.erase ref) i x ↔
      e.Booked p i x ∨ b.home.policy = i ∧ x = b.pageOf ref := booked_erase ht hl htracked
  have hvictim : e.Booked p b.home.policy victim :=
    (h.booked _ q hq victim).1 (Policy.victim_mem_pages (hreg.valid _ q hq) hnew (by rw [hadd]))
  have hstill := (hbooked _ victim).2 (Or.inl hvictim)
  refine ⟨h.rebook [_] rfl rfl rfl (fun m' r c hc => isUse_reported ht hl htracked _ _ hc)
    (fun r hr i d hd => ?_) fun i q₁ hq₁ x => ?_, hvictim⟩
  · rcases Finset.mem_insert.1 hr with rfl | hr
    · obtain ⟨m', c, hc, hctracked, -⟩ := hvictim
      obtain ⟨-, rfl⟩ := ht.eq_of_lists hc hd
      exact hctracked
    · exact h.pending r (Finset.mem_of_mem_erase hr) i d hd
  · rw [booked_insert, hbooked]
    rcases getElem?_set_eq_some hq₁ with ⟨rfl, rfl⟩ | ⟨hne, hq₁⟩
    · rw [hpages, h.booked _ q hq x, or_comm]
      simp only [true_and]
      refine and_congr_right fun hx => not_congr ⟨fun heq => heq ▸ rfl, fun howner => ?_⟩
      exact (Booked.eq_of_owner ht hstill ((hbooked _ x).2 (hx.imp_right fun heq => ⟨rfl, heq⟩))
        howner.symm).2
    · rw [h.booked i q₁ hq₁ x]
      simp only [hne, false_and, or_false]
      refine ⟨fun hx => ⟨hx, fun howner => hne ?_⟩, fun hx => hx.1⟩
      exact ((Booked.eq_of_owner ht hx hstill howner).1).symm

section Evict

variable [Wire K] [Wire V]

theorem Accounted.evict (h : Accounted p e) (ht : e.Tidy) (hl : e.Lists m page.owner b)
    (hpage : page = b.pageOf page.owner) (hp : page.owner ∈ p) :
    Accounted (p.erase page.owner) (e.evict page) := by
  have hquiet := quiet_evict page e
  have hid : b.id = page.key.pageId := (congrArg (·.key.pageId) hpage).symm
  obtain ⟨b', hb', hframe, hcases⟩ :=
    evict_cases hl.blocks_eq (ht.released_eq hl) hid (ht.store_lt hl)
  have hloaded := h.loaded m page.owner b hl (h.pending page.owner hp m b hl)
  have hleft : b'.tracked = false ∧
      (b'.entries.isSome = true → (e.evict page).Stranded page.owner b') := by
    rcases hcases with ⟨hnone, -⟩ | ⟨hnone, huntracked⟩ | ⟨es, c, hes, rfl, hevents⟩
    · simp [hnone] at hloaded
    · exact ⟨huntracked, fun hsome => by simp [hnone] at hsome⟩
    · refine ⟨rfl, fun _ => ⟨es, c, [], e.events, hes, ?_, by simp⟩⟩
      rw [hevents, List.nil_append, congrArg (·.key) hpage]
      rfl
  refine h.exchange ht hl hquiet.maps hquiet.policies hquiet.others hb'
    (Block.home_eq_of_frame hframe) (Block.id_eq_of_frame hframe) hquiet.events
    (fun r hr => by simp [hr]) ?_ (by simp) ?_ fun hes _ => hleft.2 hes
  · simp [hleft.1, hp]
  · simp [hleft.1]

/-- A policy may be told of a pending block, and the block that has to leave is evicted. -/
theorem Accounted.add (h : Accounted p e) (ht : e.Tidy) (hreg : Registered capacities e)
    (hl : e.Lists m ref b) (hp : ref ∈ p) :
    Accounted (p.erase ref) (e.addPage b.home.policy (b.pageOf ref)) := by
  dsimp only [addPage]
  cases hq : (e.record (.reported .add b.home.policy (b.pageOf ref))).policies[b.home.policy]? with
  | none =>
    have htracked := h.pending ref hp m b hl
    refine h.rebook [_] rfl rfl rfl (fun m' r c hc => isUse_reported ht hl htracked _ _ hc)
      (fun r hr => h.pending r (Finset.mem_of_mem_erase hr)) fun i q hq' x => ?_
    rw [h.booked i q hq' x, booked_erase ht hl htracked]
    refine ⟨Or.inl, fun hx => hx.resolve_right fun ⟨hi, _⟩ => ?_⟩
    have hsome : e.policies[b.home.policy]? = some q := hi ▸ hq'
    simp [record, hsome] at hq
  | some q =>
    have hq : e.policies[b.home.policy]? = some q := hq
    rcases hadd : q.add (b.pageOf ref) with ⟨q', _ | victim⟩ <;> simp only [hadd]
    · exact h.takeIn ht hreg hl hp hq hadd
    · obtain ⟨htold, m', c, hc, -, hcp, -, hceq⟩ := h.exchangePages ht hreg hl hp hq hadd
      have htidy : Engine.Tidy ((e.record (.reported .add b.home.policy (b.pageOf ref))).setPolicy
          b.home.policy q') := Paging.tidy (e := e) (.of_blocks rfl rfl rfl) ht
      have hlast := htold.evict htidy hc hceq (Finset.mem_insert_self victim.owner _)
      rwa [Finset.erase_insert fun hmem => hcp (Finset.mem_of_mem_erase hmem)] at hlast

end Evict

/-! ### Steps -/

section Steps

variable [LE K] [DecidableLE K]

/-- A new block may be listed, and is pending. -/
theorem Accounted.enlist {lastId : Nat} (h : Accounted p e) (ht : e.Tidy)
    (hm : e.maps[m]? = some state) (hb : Joins state b lastId) :
    Accounted (insert e.blocks.length p) (e.enlist m state b lastId) := by
  have hmap := maps_enlist hm b lastId
  have hblocks (r : BlockRef) : (e.enlist m state b lastId).blocks[r]? =
      if r = e.blocks.length then some b else e.blocks[r]? := blocks_enlist r
  have hlisted {i : Nat} {r : BlockRef} {c : Block K V} (hc : e.Lists i r c) :
      r ≠ e.blocks.length :=
    Nat.ne_of_lt (List.getElem?_eq_some_iff.1 hc.blocks_eq).1
  have hlists {i : Nat} {r : BlockRef} {c : Block K V} :
      (e.enlist m state b lastId).Lists i r c ↔
        e.Lists i r c ∨ i = m ∧ r = e.blocks.length ∧ c = b :=
    lists_enlist ht hm hb
  -- the new block is pending, so its page does not count yet
  refine ⟨fun i st hi => ?_, fun i q hq x => ?_, fun r hr i c hc => ?_, fun i r c hc htracked => ?_,
    fun i r c hc hes htracked => ?_, fun r c hc haway => ?_⟩
  · by_cases hne : i = m
    · subst hne
      obtain rfl := Option.some.inj (hmap.symm.trans hi)
      have hperm := (Directory.perm_insert e.blocks.length
        fun y hy => hb.id ▸ hb.fresh y hy).map (·.1.id)
      rw [hperm.nodup_iff, List.map_cons, List.nodup_cons]
      refine ⟨fun hmem => ?_, h.ids i state hm⟩
      obtain ⟨y, hy, hid⟩ := List.mem_map.1 hmem
      exact hb.fresh y hy (hid.trans hb.id.symm)
    · exact h.ids i st ((maps_enlist_of_ne hne).symm.trans hi)
  · rw [h.booked i q hq x]
    unfold Booked
    constructor
    · rintro ⟨m', c, hc, htracked, hp, hrest⟩
      exact ⟨m', c, hlists.2 (Or.inl hc), htracked, by simp [hp, hlisted hc], hrest⟩
    · rintro ⟨m', c, hc, htracked, hp, hrest⟩
      rw [Finset.mem_insert, not_or] at hp
      exact ⟨m', c, (hlists.1 hc).resolve_right fun ⟨_, hr, _⟩ => hp.1 hr, htracked, hp.2, hrest⟩
  · rcases hlists.1 hc with hc | ⟨-, -, rfl⟩
    · exact h.pending r ((Finset.mem_insert.1 hr).resolve_left (hlisted hc)) i c hc
    · exact hb.tracked
  · rcases hlists.1 hc with hc | ⟨-, -, rfl⟩
    · exact h.loaded i r c hc htracked
    · exact hb.entries
  · rcases hlists.1 hc with hc | ⟨-, -, rfl⟩
    · exact (h.stranded i r c hc hes htracked).mono [] rfl (by simp) rfl rfl rfl
    · simp [hb.tracked] at htracked
  · rw [hblocks] at hc
    split at hc
    · rename_i hr
      exact absurd (hr ▸ Option.some.inj hc ▸ (retains_enlist ht hm hb).2) (haway m)
    · exact h.away r c hc fun i hi => haway i (hlists.2 (Or.inl hi))

variable [Wire K] [Wire V] {x y : Finset BlockRef × Engine K V}

theorem Step.accounted (hstep : Step m x y) (ht : x.2.Tidy) (hreg : Registered capacities x.2)
    (h : Accounted x.1 x.2) : Accounted y.1 y.2 := by
  cases hstep with
  | @read p e e' ref b es hl hrun =>
    obtain ⟨hquiet, hloaded⟩ := quiet_access hl.blocks_eq hrun
    have hdue (r : BlockRef) : r ∈ b.due ref ↔ r = ref ∧ b.tracked = false := by
      unfold Block.due
      split <;> rename_i htracked <;> simp [htracked]
    refine h.exchange ht hl hquiet.maps hquiet.policies hquiet.others hloaded rfl rfl hquiet.events
      (fun r hr => ?_) ?_ (fun _ => rfl) (fun _ => rfl) fun _ hfalse => ?_
    · simp [hdue, hr]
    · simp [hdue, Block.loaded, and_comm]
    · simp [Block.loaded] at hfalse
  | unread hl hrun =>
    obtain ⟨hquiet, hblocks⟩ := quiet_access_error hrun
    exact h.mono hquiet.maps hblocks hquiet.policies hquiet.events
  | @edit p e ref b b' hl htracked hb =>
    obtain ⟨hlt, -⟩ := List.getElem?_eq_some_iff.1 hl.blocks_eq
    have htracked' := hb.tracked.trans htracked
    refine h.exchange ht hl rfl rfl (fun r hr => List.getElem?_set_ne hr.symm)
      (List.getElem?_set_self hlt) hb.home hb.id ⟨[], rfl, by simp⟩ (fun _ _ => Iff.rfl) ?_
      (fun _ => htracked') (fun _ => hb.entries) fun _ hfalse => ?_
    · rw [htracked', htracked]
    · simp [htracked'] at hfalse
  | list hm hb => exact h.enlist ht hm hb
  | hit hl htracked => exact h.hit ht hl htracked
  | add hl hp => exact h.add ht hreg hl hp
  | @persist p e e' ref b r hl hrun =>
    obtain ⟨hquiet, hkept⟩ := quiet_persist hrun
    obtain ⟨b', hb', hframe, hentries, htracked⟩ := hkept b hl.blocks_eq
    have hhome := Block.home_eq_of_frame hframe
    have hid := Block.id_eq_of_frame hframe
    obtain ⟨added, hevents, hadded⟩ := hquiet.events
    refine h.exchange ht hl hquiet.maps hquiet.policies hquiet.others hb' hhome hid hquiet.events
      (fun _ _ => Iff.rfl) (by rw [htracked]) (fun hp => htracked.trans (h.pending ref hp m b hl))
      (fun ht' => ?_) fun hes hfalse => ?_
    · rw [hentries]
      exact h.loaded m ref b hl (htracked.symm.trans ht')
    · exact (h.stranded m ref b hl (hentries ▸ hes) (htracked.symm.trans hfalse)).mono added hevents
        (fun event hevent => Event.isUse_of_not_isReport (hadded event hevent) ref)
        hentries hhome hid
  | look scans => exact h.mono rfl rfl rfl ⟨[], rfl, by simp⟩
  | note notice => exact h.mono rfl rfl rfl ⟨[_], rfl, by simp [Event.isReport]⟩

theorem Steps.accounted (hsteps : Steps m x y) (ht : x.2.Tidy) (hreg : Registered capacities x.2)
    (h : Accounted x.1 x.2) : Accounted y.1 y.2 := by
  induction hsteps with
  | refl => exact h
  | tail hsteps hstep ih =>
    exact hstep.accounted (Steps.retains hsteps ht).tidy (Steps.registered hsteps ht hreg) ih

end Steps

/-! ### Giving up blocks and listing others -/

/-- A policy may be told to forget the page of a block, which is pending if it is tracked. -/
theorem Accounted.forget (h : Accounted p e) (ht : e.Tidy) (hreg : Registered capacities e)
    (hl : e.Lists m ref b) :
    Accounted (if b.tracked then insert ref p else p)
      (e.removePage b.home.policy (b.pageOf ref)) := by
  have hevents : (e.removePage b.home.policy (b.pageOf ref)).events =
      [.reported .remove b.home.policy (b.pageOf ref)] ++ e.events := by
    dsimp only [removePage]
    split <;> rfl
  -- a tracked block is pending from now on, so its page does not count any more
  have hkeep {i : Nat} {x : Page BlockRef} :
      e.Booked (if b.tracked then insert ref p else p) i x ↔ e.Booked p i x ∧ x.owner ≠ ref := by
    split
    · exact booked_insert ref
    · rename_i hfalse
      refine ⟨fun hx => ⟨hx, ?_⟩, fun hx => hx.1⟩
      rintro rfl
      obtain ⟨m', c, hc, htracked, -⟩ := hx
      obtain ⟨-, rfl⟩ := ht.eq_of_lists hl hc
      exact hfalse htracked
  refine h.rebook [_] (paging_removePage _ _ _).maps (blocks_removePage _ _ _) hevents
    (by simp [Event.isUse]) (fun r hr i c hc => ?_) fun i q' hq' x => ?_
  · split at hr
    · rename_i htracked
      rcases Finset.mem_insert.1 hr with rfl | hr
      · obtain ⟨-, rfl⟩ := ht.eq_of_lists hl hc
        exact htracked
      · exact h.pending r hr i c hc
    · exact h.pending r hr i c hc
  · rw [policies_removePage, List.getElem?_modify] at hq'
    obtain ⟨q, hq, rfl⟩ := Option.map_eq_some_iff.1 hq'
    rw [hkeep]
    split
    · rw [Policy.mem_pages_remove (hreg.valid i q hq), h.booked i q hq x]
      refine and_congr_right fun hx => not_congr ?_
      obtain ⟨m', c, hc, -, -, -, hxeq⟩ := hx
      constructor
      · intro hkey
        have hkey' := (congrArg (·.key) hxeq).symm.trans hkey
        exact (h.eq_of_key ht hc hl hkey').2.1
      · intro howner
        obtain ⟨-, rfl⟩ := ht.eq_of_lists hl (howner ▸ hc)
        rw [hxeq, howner]
    · rename_i hne
      rw [h.booked i q hq x]
      refine ⟨fun hx => ⟨hx, fun howner => hne ?_⟩, fun hx => hx.1⟩
      obtain ⟨m', c, hc, -, -, hpolicy, -⟩ := hx
      obtain ⟨-, rfl⟩ := ht.eq_of_lists hl (howner ▸ hc)
      exact hpolicy

theorem Accounted.discard (h : Accounted p e) (ht : e.Tidy) (hreg : Registered capacities e)
    (hl : e.Lists m ref b) (hp : ref ∉ p) : Accounted p (e.discard ref) := by
  have hb := hl.blocks_eq
  obtain ⟨hlt, -⟩ := List.getElem?_eq_some_iff.1 hb
  -- the policy forgets the page first, and the block is pending until it left memory
  have htold := h.forget ht hreg hl
  have hpaging : Paging e (e.removePage b.home.policy (b.pageOf ref)) := paging_removePage _ _ _
  have hblocks := blocks_removePage b.home.policy (b.pageOf ref) e
  have heq : e.discard ref = (e.removePage b.home.policy (b.pageOf ref)).setBlock ref
      b.forgotten := by
    rw [discard_eq hb]
    dsimp only [removePage]
    split <;> rename_i hq <;> simp only [setBlock, record] at hq <;> simp [record, hq] <;> rfl
  have hl₁ : (e.removePage b.home.policy (b.pageOf ref)).Lists m ref b := by
    obtain ⟨state, hm, hr, hget⟩ := hl
    exact ⟨state, hpaging.maps.symm ▸ hm, hr, hblocks.symm ▸ hget⟩
  rw [heq]
  refine htold.exchange (hpaging.tidy ht) hl₁ rfl rfl
    (fun r hr => List.getElem?_set_ne hr.symm) (List.getElem?_set_self (hblocks.symm ▸ hlt)) rfl rfl
    ⟨[], rfl, by simp⟩ (fun r hr => ?_) ?_ (fun hmem => absurd hmem hp)
    (fun hfalse => by simp [Block.forgotten] at hfalse)
    fun hes _ => by simp [Block.forgotten] at hes
  · split
    · simp [hr]
    · rfl
  · split <;> rename_i htracked <;> simp [Block.forgotten, htracked]

/-- Blocks that are out of memory may be listed and taken off the lists. -/
theorem Accounted.relist (h : Accounted ∅ e)
    (hids : ∀ (m : Nat) state, e'.maps[m]? = some state → (state.directory.map (·.1.id)).Nodup)
    (hpolicies : e'.policies = e.policies)
    (hevents : ∃ added, e'.events = added ++ e.events ∧ ∀ event ∈ added, event.isReport = false)
    (hnew : ∀ i r c, e'.Lists i r c → e.Lists i r c ∨ c.entries = none ∧ c.tracked = false)
    (hold : ∀ i r c, e.Lists i r c → c.tracked = true → e'.Lists i r c)
    (haway : ∀ (r : BlockRef) c, e'.blocks[r]? = some c → (∀ i, ¬ e'.Lists i r c) →
      c.entries = none ∧ c.tracked = false) : Accounted ∅ e' := by
  obtain ⟨added, hevents, hadded⟩ := hevents
  have htracked {i : Nat} {r : BlockRef} {c : Block K V} (hc : e'.Lists i r c)
      (htracked : c.tracked = true) : e.Lists i r c :=
    (hnew i r c hc).resolve_right fun hbare => by simp [hbare.2] at htracked
  refine ⟨hids, fun i q hq x => ?_, fun r hr => absurd hr (Finset.notMem_empty r),
    fun i r c hc hsome => h.loaded i r c (htracked hc hsome) hsome,
    fun i r c hc hes hfalse => ?_, haway⟩
  · rw [h.booked i q (hpolicies ▸ hq) x]
    constructor
    · rintro ⟨m, c, hc, hsome, hrest⟩
      exact ⟨m, c, hold m _ c hc hsome, hsome, hrest⟩
    · rintro ⟨m, c, hc, hsome, hrest⟩
      exact ⟨m, c, htracked hc hsome, hsome, hrest⟩
  · rcases hnew i r c hc with hc | ⟨hnone, -⟩
    · exact (h.stranded i r c hc hes hfalse).mono added hevents
        (fun event hevent => Event.isUse_of_not_isReport (hadded event hevent) r) rfl rfl rfl
    · simp [hnone] at hes

theorem accounted_give_up (h : Accounted ∅ e) (ht : e.Tidy) (hreg : Registered capacities e)
    (hm : e.maps[m]? = some state) (he : e' = e.clear m ∨ e' = e.drop m) : Accounted ∅ e' := by
  obtain ⟨e₁, hpaging, hreg₁, ⟨-, h₁⟩, hpolicies, hstores, hevents, -, hothers, hgone⟩ :=
    give_up_cases (P := fun e => Registered capacities e ∧ Accounted ∅ e)
      (fun e ref b ht hl ⟨hreg, h⟩ =>
        ⟨(registered_discard ht hreg hl).1, h.discard ht hreg hl (Finset.notMem_empty _)⟩)
      ht hm hreg ⟨hreg, h⟩ he
  have ht₁ := hpaging.tidy ht
  have hm₁ : e₁.maps[m]? = some state := hpaging.maps.symm ▸ hm
  have hmaps : e'.maps = e₁.maps.set m { state with directory := [] } := by
    rw [maps_give_up hm he, hpaging.maps]
  have hother {i : Nat} (hi : i ≠ m) {r : BlockRef} {c : Block K V} (hc : e₁.Lists i r c) :
      r ∉ state.directory.refs := fun hr => by
    obtain ⟨d, hd⟩ := ht₁.exists_lists hm₁ hr
    exact hi (ht₁.eq_of_lists hc hd).1
  have hsame {r : BlockRef} (hr : r ∉ state.directory.refs) : e'.blocks[r]? = e₁.blocks[r]? :=
    (hothers r hr).2.trans (hothers r hr).1.symm
  obtain ⟨-, hlists⟩ := retains_unlist ht₁ hm₁ hmaps (congrArg List.length hstores)
    fun i hi r c hc => (hsame (hother hi hc)).trans hc.blocks_eq
  have hlt := (List.getElem?_eq_some_iff.1 hm₁).1
  refine h₁.relist (fun i st hi => ?_) hpolicies ⟨[_], hevents, by simp [Event.isReport]⟩
    (fun i r c hc => Or.inl ((hlists i r c).1 hc).2)
    (fun i r c hc htracked => (hlists i r c).2 ⟨?_, hc⟩) fun r c hc haway => ?_
  · rw [hmaps] at hi
    by_cases hne : i = m
    · subst hne
      rw [List.getElem?_set_self hlt] at hi
      obtain rfl := Option.some.inj hi
      exact List.nodup_nil
    · rw [List.getElem?_set_ne (Ne.symm hne)] at hi
      exact h₁.ids i st hi
  · rintro rfl
    obtain ⟨st, hi, hr, hc⟩ := hc
    obtain rfl : state = st := Option.some.inj (hm₁.symm.trans hi)
    obtain ⟨-, hfalse⟩ := (hgone r hr).1.block c hc
    simp [hfalse] at htracked
  · by_cases hr : r ∈ state.directory.refs
    · exact (hgone r hr).2.block c hc
    · refine h₁.away r c ((hsame hr).symm.trans hc) fun i hi => haway i ((hlists i r c).2 ⟨?_, hi⟩)
      rintro rfl
      obtain ⟨st, hi, hr', -⟩ := hi
      exact hr (Option.some.inj (hm₁.symm.trans hi) ▸ hr')

section Restore

variable [LE K] [DecidableLE K]

/-- Blocks with different numbers are listed under different numbers. -/
theorem ids_foldl_restoreBlock (infos : List (BlockInfo K)) (hm : e.maps[m]? = some state)
    (hids : (state.directory.map (·.1.id) ++ infos.map (·.id)).Nodup) :
    ∀ state', (infos.foldl (restoreBlock m) e).maps[m]? = some state' →
      (state'.directory.map (·.1.id)).Nodup := by
  induction infos generalizing e state with
  | nil =>
    intro state' hm'
    obtain rfl : state = state' := Option.some.inj (hm.symm.trans hm')
    simpa using hids
  | cons info infos ih =>
    have hnew : ∀ x ∈ state.directory,
        x.1.id ≠ (Block.ofInfo (V := V) state.home info).start.id := by
      intro x hx heq
      rw [id_start_ofInfo] at heq
      exact (List.nodup_append.1 hids).2.2 _ (List.mem_map_of_mem hx) _ List.mem_cons_self heq
    have hperm := (Directory.perm_insert e.blocks.length hnew).map (·.1.id)
    have hm₁ : (restoreBlock m e info).maps[m]? = some { state with
        directory := Directory.insert (Block.ofInfo (V := V) state.home info).start e.blocks.length
          state.directory, lastId := max state.lastId info.id } := by
      rw [restoreBlock_eq hm]
      exact maps_enlist hm _ _
    refine ih hm₁ ?_
    rw [(hperm.append_right _).nodup_iff]
    simp only [List.map_cons, id_start_ofInfo, List.cons_append] at hids ⊢
    exact (List.perm_middle.nodup_iff).1 hids

theorem accounted_restore {snapshot : Snapshot K} (h : Accounted ∅ e) (ht : e.Tidy)
    (hreg : Registered capacities e) (hm : e.maps[m]? = some state)
    (hids : (snapshot.blocks.map (·.id)).Nodup) : Accounted ∅ (e.restore m snapshot) := by
  set e₀ := e.notify (.mapRestored snapshot.blocks.length) with he₀
  have hm₀ : e₀.maps[m]? = some state := hm
  have hpaging : Paging e e₀ := (quiet_notify 0 _ e).toPaging
  have h₀ : Accounted ∅ e₀ := h.mono rfl rfl rfl ⟨[_], rfl, by simp [Event.isReport]⟩
  have hreg₀ : Registered capacities e₀ := hreg.of_policies rfl (hpaging.retains ht m).lists
  have h₁ := accounted_give_up h₀ (hpaging.tidy ht) hreg₀ hm₀ (Or.inl rfl)
  obtain ⟨hcleared, ht₁, -, hrestores⟩ := restores_restore snapshot ht hm
  have hne {i : Nat} {r : BlockRef} {c : Block K V} (hc : (e₀.clear m).Lists i r c) : i ≠ m :=
    ((hcleared i r c).1 hc).1
  refine h₁.relist (fun i st hi => ?_) hrestores.policies hrestores.events (fun i r c hc => ?_)
    (fun i r c hc _ => ?_) fun r c hc haway => ?_
  · by_cases hne : i = m
    · subst hne
      obtain ⟨hlt, -⟩ := List.getElem?_eq_some_iff.1 hm₀
      have hm₁ : (e₀.clear i).maps[i]? = some { state with directory := [] } := by
        rw [maps_give_up hm₀ (Or.inl rfl), List.getElem?_set_self hlt]
      exact ids_foldl_restoreBlock snapshot.blocks hm₁ (by simpa using hids) st hi
    · exact h₁.ids i st ((hrestores.others i hne).symm.trans hi)
  · by_cases hne : i = m
    · obtain ⟨hnone, huntracked, -⟩ := hrestores.bare r c (hne ▸ hc)
      exact Or.inr ⟨hnone, huntracked⟩
    · exact Or.inl ((hrestores.lists ht₁ hne).1 hc)
  · exact (hrestores.lists ht₁ (hne hc)).2 hc
  · rcases hrestores.new r c hc with hc₁ | hbare
    · exact h₁.away r c hc₁ fun i hi => haway i ((hrestores.lists ht₁ (hne hi)).2 hi)
    · exact hbare

end Restore

theorem accounted_addMap {sizing : Sizing} {policy store : Nat} (h : Accounted ∅ e) (ht : e.Tidy)
    (hstore : store < e.stores.length) (he : e.addMap sizing policy store = .ok e') :
    Accounted ∅ e' := by
  obtain ⟨-, -, -, hlists⟩ := tidy_addMap ht hstore he
  obtain ⟨budget, -, rfl⟩ := addMap_eq_ok he
  refine h.relist (fun i st hi => ?_) rfl ⟨[], rfl, by simp⟩
    (fun i r c hc => Or.inl ((hlists i r c).1 hc)) (fun i r c hc _ => (hlists i r c).2 hc)
    fun r c hc haway => h.away r c hc fun i hi => haway i ((hlists i r c).2 hi)
  simp only [getElem?_append_singleton] at hi
  split at hi
  · exact Option.some.inj hi ▸ List.nodup_nil
  · exact h.ids i st hi

end Engine

end PagedMap
