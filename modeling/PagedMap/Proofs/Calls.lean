import Mathlib
import PagedMap.Proofs.Registry
import PagedMap.Proofs.Serve

/-!
# Runs with any snapshots and any failures

A run is a list of calls (`Call`): the requests of one page store, maps over other page stores, and
maps that are restored from any description of blocks, whoever wrote it.  Nothing is assumed of what
is on pages, and page stores may fail at any time.  Block numbers are counted on without end here;
the results about runs ask that they stay below the largest 64-bit word (`Engine.IdsFit`).

A run is watched for which map a scan reads, as long as the map has the blocks that the scan is to
read (`Watch`).  The scan of a map that was cleared, dropped or restored since reads blocks that
were given up.  If no such scan goes on (`Watch.Punctual`), the maps stay tidy (`Watch.Orderly`),
and if nobody but the maps brings pages to a policy either (`Watch.Timely`), the policies track
pages of listed blocks only (`Watch.tracksListed_run`).
-/

namespace PagedMap

variable {K V : Type}

/-- What can be called. -/
inductive Call (K V : Type) where
  | request (q : Request K V)
  /-- A map over one of several page stores. -/
  | make (sizing : Sizing) (policy store : Nat)
  /-- A map is restored from a description of blocks. -/
  | boot (m : Nat) (snapshot : Snapshot K)
  /-- Refusals of one of several page stores are planned. -/
  | plan (store : Nat) (faults : Faults)

/-- The map that is called, if there is one. -/
def Call.target? : Call K V → Option Nat
  | request q => q.target?
  | boot m _ => some m
  | make .. | plan .. => none

/-- Whether a call makes a map give up its blocks. -/
def Call.GivesUp (c : Call K V) (m : Nat) : Prop :=
  c = .request (.clear m) ∨ c = .request (.drop m) ∨ ∃ snapshot, c = .boot m snapshot

namespace Engine

/-- All block numbers are below the largest 64-bit word, so the next one does not wrap to zero. -/
def IdsFit (e : Engine K V) : Prop := ∀ state ∈ e.maps, state.lastId < UInt64.size - 1

instance (e : Engine K V) : Decidable e.IdsFit :=
  inferInstanceAs (Decidable (∀ state ∈ e.maps, state.lastId < UInt64.size - 1))

variable [Wire K] [Wire V] [LE K] [DecidableLE K] [Sized K] [Sized V]

/-- The engine after a call.  One for a map or a page store that there is not changes nothing. -/
def call (e : Engine K V) : Call K V → Engine K V
  | .request q => (e.serve q).2
  | .make sizing policy store =>
    if store < e.stores.length then (e.addMap sizing policy store).toOption.getD e else e
  | .boot m snapshot => if m < e.maps.length then e.restore m snapshot else e
  | .plan store faults => e.plan store faults

end Engine

/-- An engine, and for each of its scans the map that it reads; none if the map gave up the blocks
that the scan is to read. -/
structure Watch (K V : Type) where
  engine : Engine K V
  readers : List (Option Nat) := []

namespace Watch

variable [Wire K] [Wire V] [LE K] [DecidableLE K] [Sized K] [Sized V]

/-- The readers of a map when it gives up its blocks. -/
def giveUp (m : Nat) (readers : List (Option Nat)) : List (Option Nat) :=
  readers.map fun reader => if reader = some m then none else reader

/-- Which map each scan reads after a call. -/
def readersAfter (w : Watch K V) : Call K V → List (Option Nat)
  | .request (.openScan m first last) =>
    match (w.engine.serve (.openScan m first last)).1 with
    | .done => w.readers ++ [some m]
    | _ => w.readers
  | .request (.clear m) | .request (.drop m) | .boot m _ => giveUp m w.readers
  | _ => w.readers

/-- The watch after a call. -/
def step (w : Watch K V) (c : Call K V) : Watch K V := ⟨w.engine.call c, w.readersAfter c⟩

/-- The watch after the calls of a list. -/
def run (w : Watch K V) (cs : List (Call K V)) : Watch K V := cs.foldl step w

/-- Every call of a list is as `P` says when it is made. -/
inductive All (P : Watch K V → Call K V → Prop) : Watch K V → List (Call K V) → Prop
  | nil (w : Watch K V) : All P w []
  | cons {w : Watch K V} {c : Call K V} {cs : List (Call K V)} (h : P w c)
      (hs : All P (w.step c) cs) : All P w (c :: cs)

instance decidableAll (P : Watch K V → Call K V → Prop) [∀ w c, Decidable (P w c)] (w : Watch K V) :
    (cs : List (Call K V)) → Decidable (All P w cs)
  | [] => .isTrue (.nil w)
  | c :: cs =>
    have := decidableAll P (w.step c) cs
    decidable_of_iff (P w c ∧ All P (w.step c) cs)
      ⟨fun h => .cons h.1 h.2, fun h => by
        cases h with
        | cons hc hcs => exact ⟨hc, hcs⟩⟩

theorem All.mono {P Q : Watch K V → Call K V → Prop} {w : Watch K V} {cs : List (Call K V)}
    (h : w.All P cs) (hPQ : ∀ w c, P w c → Q w c) : w.All Q cs := by
  induction h with
  | nil w => exact .nil w
  | cons hc _ ih => exact .cons (hPQ _ _ hc) ih

/-- A watch over maps that are still to be made, over one page store or more. -/
def start (policies : List (Policy BlockRef)) (store : Store K V) (stores : List (Store K V))
    (volume : Volume) : Watch K V :=
  { engine := { policies, stores := store :: stores, volume } }

/-- No scan goes on after its map gave up the blocks that it is to read, and nobody but the maps
brings in pages. -/
def Timely (w : Watch K V) : Call K V → Prop
  | .request (.next n) => w.readers[n]? ≠ some none
  | .request (.report .add ..) => False
  | _ => True

/-- No scan goes on after its map gave up the blocks that it is to read. -/
def Punctual (w : Watch K V) : Call K V → Prop
  | .request (.next n) => w.readers[n]? ≠ some none
  | _ => True

instance decidableTimely (w : Watch K V) : (c : Call K V) → Decidable (w.Timely c)
  | .request (.next n) => inferInstanceAs (Decidable (w.readers[n]? ≠ some none))
  | .request (.report .add ..) => .isFalse id
  | .request (.report .hit ..) | .request (.report .remove ..) | .request (.make ..)
  | .request (.put ..) | .request (.remove ..) | .request (.get ..)
  | .request (.search ..) | .request (.contains ..) | .request (.range ..)
  | .request (.checkpoint _)
  | .request (.clear _) | .request (.drop _) | .request (.openScan ..) | .request (.closeScan _)
  | .request (.evict _) | .request (.plan _) | .make .. | .boot .. | .plan .. => .isTrue trivial

instance decidablePunctual (w : Watch K V) : (c : Call K V) → Decidable (w.Punctual c)
  | .request (.next n) => inferInstanceAs (Decidable (w.readers[n]? ≠ some none))
  | .request (.report ..) | .request (.make ..) | .request (.put ..) | .request (.remove ..)
  | .request (.get ..) | .request (.search ..) | .request (.contains ..) | .request (.range ..)
  | .request (.checkpoint _) | .request (.clear _) | .request (.drop _) | .request (.openScan ..)
  | .request (.closeScan _) | .request (.evict _) | .request (.plan _) | .make .. | .boot ..
  | .plan .. =>
    .isTrue trivial

omit [Wire K] [Wire V] [LE K] [DecidableLE K] [Sized K] [Sized V] in
theorem Timely.punctual {w : Watch K V} {c : Call K V} (h : w.Timely c) : w.Punctual c := by
  unfold Punctual
  split
  · exact h
  · trivial

end Watch

/-! ### What a call does -/

namespace Engine

/-- A step that leaves maps, blocks, policies, pages and records. -/
structure Aside (e e' : Engine K V) : Prop where
  maps : e'.maps = e.maps
  blocks : e'.blocks = e.blocks
  policies : e'.policies = e.policies
  stores : e'.stores.map (·.backing) = e.stores.map (·.backing)
  volume : e'.volume = e.volume
  events : e'.events = e.events

theorem Aside.refl (e : Engine K V) : Aside e e := ⟨rfl, rfl, rfl, rfl, rfl, rfl⟩

theorem aside_plan (store : Nat) (faults : Faults) (e : Engine K V) :
    Aside e (e.plan store faults) := by
  refine ⟨rfl, rfl, rfl, List.ext_getElem? fun i => ?_, rfl, rfl⟩
  simp only [plan, List.getElem?_map, List.getElem?_modify]
  cases e.stores[i]? with
  | none => rfl
  | some s => by_cases hi : store = i <;> simp [hi]

theorem Aside.paging {e e' : Engine K V} (h : Aside e e') : Paging e e' :=
  .of_blocks h.maps (by simpa using congrArg List.length h.stores) h.blocks

variable [Wire K] [Wire V] [LE K] [DecidableLE K] [Sized K] [Sized V]

/-- What a call does. -/
inductive Effect (e : Engine K V) : Call K V → Engine K V → Prop
  /-- The map that is called takes steps. -/
  | steps {m : Nat} {c : Call K V} {e' : Engine K V} (hc : c.target? = some m)
      (h : Steps m (∅, e) (∅, e')) : Effect e c e'
  | next {n : Nat} : Effect e (.request (.next n)) (e.next n).2
  /-- All blocks of a map are given up. -/
  | giveUp {m : Nat} {state : MapState K} {c : Call K V} {e' : Engine K V}
      (hc : c = .request (.clear m) ∨ c = .request (.drop m)) (hm : e.maps[m]? = some state)
      (he : e' = e.clear m ∨ e' = e.drop m) : Effect e c e'
  | boot {m : Nat} {state : MapState K} {snapshot : Snapshot K} (hm : e.maps[m]? = some state) :
      Effect e (.boot m snapshot) (e.restore m snapshot)
  | make {sizing : Sizing} {policy store : Nat} {c : Call K V} {e' : Engine K V}
      (hc : c.target? = none) (hstore : store < e.stores.length)
      (he : e.addMap sizing policy store = .ok e') : Effect e c e'
  | evict {page : Page BlockRef} : Effect e (.request (.evict page)) (e.evict page)
  | add {policy : Nat} {page : Page BlockRef} :
      Effect e (.request (.report .add policy page)) (e.addPage policy page)
  | hit {policy : Nat} {page : Page BlockRef} :
      Effect e (.request (.report .hit policy page)) (e.hitPage policy page)
  | remove {policy : Nat} {page : Page BlockRef} :
      Effect e (.request (.report .remove policy page)) (e.removePage policy page)
  | aside {c : Call K V} {e' : Engine K V} (h : Aside e e') : Effect e c e'

variable {e e' : Engine K V} {m : Nat} {q : Request K V} {c : Call K V}

theorem effect_perform (ht : e.Tidy) (hq : q.target? = some m) (hm : m < e.maps.length) :
    Effect e (.request q) (e.perform q).2 := by
  obtain ⟨state, hstate⟩ : ∃ state, e.maps[m]? = some state := ⟨_, List.getElem?_eq_getElem hm⟩
  cases q <;> simp only [Request.target?, Option.some.injEq, reduceCtorEq] at hq <;> subst hq
  case put m key value => exact .steps rfl (steps_put ht rfl)
  case remove m key => exact .steps rfl (steps_remove ht rfl)
  case get m key => exact .steps rfl (steps_get? ht rfl)
  case search m key =>
    have hrun : Act.run (valuesBetween m (some key) (some key)) e = (_, _) := Prod.mk.eta.symm
    exact .steps rfl (steps_valuesBetween ht hrun)
  case contains m key => exact .steps rfl (steps_contains ht rfl)
  case range m first last => exact .steps rfl (steps_valuesBetween ht rfl)
  case checkpoint m => exact .steps rfl (steps_snapshot ht rfl)
  case clear m => exact .giveUp (Or.inl rfl) hstate (Or.inl rfl)
  case drop m => exact .giveUp (Or.inr rfl) hstate (Or.inr rfl)
  case openScan m first last =>
    refine .aside ?_
    simp only [perform]
    unfold openScan
    rcases scan m first last e with cause | s
    · exact .refl e
    · exact ⟨rfl, rfl, rfl, rfl, rfl, rfl⟩

theorem effect_call (ht : e.Tidy) (hstores : 0 < e.stores.length) (c : Call K V) :
    Effect e c (e.call c) := by
  have hmake {c : Call K V} (hc : c.target? = none) (sizing : Sizing) (policy : Nat) {store : Nat}
      (hstore : store < e.stores.length) :
      Effect e c ((e.addMap sizing policy store).toOption.getD e) := by
    rcases hadd : e.addMap sizing policy store with cause | e'
    · exact .aside (.refl e)
    · exact .make hc hstore hadd
  cases c with
  | request q =>
    simp only [call, serve]
    split
    · rename_i htarget
      cases hq : q.target? with
      | some m => exact effect_perform ht hq (by simpa [hq] using htarget)
      | none =>
        cases q <;> simp only [Request.target?, reduceCtorEq] at hq
        case make sizing policy =>
          have heffect := hmake (c := .request (.make sizing policy)) rfl sizing policy hstores
          simp only [perform]
          rcases hadd : e.addMap sizing policy 0 with cause | e' <;> rw [hadd] at heffect <;>
            exact heffect
        case next n =>
          have hserve := congrArg Prod.snd (serve_next n e)
          simp only [serve, Request.target?, Option.all_none, if_true] at hserve
          exact hserve ▸ .next
        case closeScan n => exact .aside ⟨rfl, rfl, rfl, rfl, rfl, rfl⟩
        case evict page => exact .evict
        case report r policy page =>
          cases r with
          | add => exact .add
          | hit => exact .hit
          | remove => exact .remove
        case plan faults => exact .aside (aside_plan 0 faults e)
    · exact .aside (.refl e)
  | make sizing policy store =>
    simp only [call]
    split
    · rename_i hstore
      exact hmake rfl sizing policy hstore
    · exact .aside (.refl e)
  | boot m snapshot =>
    simp only [call]
    split
    · rename_i hm
      exact .boot (List.getElem?_eq_getElem hm)
    · exact .aside (.refl e)
  | plan store faults => exact .aside (aside_plan store faults e)

omit [Sized K] [Sized V] in
theorem paging_valuesIn (ref : BlockRef) (first last : Option K) (e : Engine K V) :
    Paging e (Act.run (valuesIn ref first last) e).2 := by
  rcases h : Act.run (valuesIn ref first last) e with ⟨r, e'⟩
  rcases valuesIn_cases h with ⟨-, -, rfl⟩ |
    ⟨b, hb, ⟨-, -, rfl⟩ | ⟨-, ⟨cause, haccess, -⟩ | ⟨es, e₁, haccess, -, rfl⟩⟩⟩
  · exact .refl _
  · exact .refl _
  · exact paging_access hb haccess
  · exact (paging_access hb haccess).trans (paging_touch _ _ _)

omit [Sized K] [Sized V] in
/-- A step of any scan moves blocks in and out of memory, and the maps stay. -/
theorem paging_next (n : Nat) (e : Engine K V) : Paging e (e.next n).2 := by
  have hset (s : Scan K V) (e : Engine K V) : Paging e (e.setScan n s) := .of_blocks rfl rfl rfl
  unfold Engine.next
  split
  · exact .refl e
  · rename_i s hs
    exact (nextWithin_induct .refl (fun _ _ _ => .trans) hset
      (fun ref first last e => paging_valuesIn ref first last e) e.blocks.length s e).trans
      (hset _ _)

omit [Sized K] [Sized V] in
/-- Every call keeps the maps tidy, and what is listed by maps that it does not make give up their
blocks. -/
theorem Effect.tidy (h : Effect e c e') (ht : e.Tidy) (hstores : 0 < e.stores.length) :
    e'.Tidy ∧ 0 < e'.stores.length ∧ ∀ m, ¬ c.GivesUp m → ∀ (ref : BlockRef) (b : Block K V),
      e.Lists m ref b → ∃ b', e'.Lists m ref b' := by
  have hpaging {e' : Engine K V} (hp : Paging e e') :
      e'.Tidy ∧ 0 < e'.stores.length ∧ ∀ m, ¬ c.GivesUp m → ∀ (ref : BlockRef) (b : Block K V),
        e.Lists m ref b → ∃ b', e'.Lists m ref b' := by
    refine ⟨hp.tidy ht, hp.stores ▸ hstores, fun m _ ref b hl => ?_⟩
    obtain ⟨b', hl', -⟩ := hp.lists hl
    exact ⟨b', hl'⟩
  cases h with
  | steps _ hs =>
    have hretains := hs.retains ht
    refine ⟨hretains.tidy, hretains.stores ▸ hstores, fun m _ ref b hl => ?_⟩
    obtain ⟨b', hl', -⟩ := hretains.lists m ref b hl
    exact ⟨b', hl'⟩
  | next => exact hpaging (paging_next _ _)
  | @giveUp m state _ _ hcall hm he =>
    obtain ⟨htidy, hsame, hlists⟩ := tidy_give_up ht hm he
    refine ⟨htidy, hsame ▸ hstores, fun i hi ref b hl => ⟨b, (hlists i ref b).2 ⟨?_, hl⟩⟩⟩
    rintro rfl
    exact hi (hcall.elim Or.inl fun hdrop => Or.inr (Or.inl hdrop))
  | @boot m state snapshot hm =>
    obtain ⟨hlists, ht₁, hsame, hrestores⟩ := restores_restore snapshot ht hm
    refine ⟨hrestores.tidy, hsame ▸ hstores, fun i hi ref b hl => ⟨b, ?_⟩⟩
    have hne : i ≠ m := fun hne => hi (Or.inr (Or.inr ⟨snapshot, hne ▸ rfl⟩))
    exact (hrestores.lists ht₁ hne).2 ((hlists i ref b).2 ⟨hne, hl⟩)
  | make _ hstore he =>
    obtain ⟨htidy, hsame, -, hlists⟩ := tidy_addMap ht hstore he
    exact ⟨htidy, hsame ▸ hstores, fun i _ ref b hl => ⟨b, (hlists i ref b).2 hl⟩⟩
  | evict => exact hpaging (quiet_evict _ _).toPaging
  | add => exact hpaging (paging_addPage _ _ _)
  | hit => exact hpaging (paging_hitPage _ _ _)
  | remove => exact hpaging (paging_removePage _ _ _)
  | aside haside => exact hpaging haside.paging

omit [Sized K] [Sized V] in
theorem AllHold.stores_pos {limit : Option Nat} (hs : e.AllHold limit) :
    0 < e.stores.length := by
  obtain ⟨s, hone, -⟩ := hs.roomy
  simp [hone]

/-- A request keeps the maps tidy, and what a map lists unless it gives up its blocks. -/
theorem tidy_serve {a : Answer K V} (ht : e.Tidy) (hstores : 0 < e.stores.length)
    (hserve : e.serve q = (a, e')) : e'.Tidy ∧ 0 < e'.stores.length ∧
      ∀ m, q ≠ .clear m → q ≠ .drop m → e.listed m ⊆ e'.listed m := by
  obtain ⟨htidy, hlt, hlists⟩ := (effect_call ht hstores (.request q)).tidy ht hstores
  rw [call, hserve] at htidy hlt hlists
  refine ⟨htidy, hlt, fun m hclear hdrop => ?_⟩
  rintro r ⟨b, hl⟩
  exact hlists m (by simp [Call.GivesUp, hclear, hdrop]) r b hl

omit [Sized K] [Sized V] in
/-- A call keeps the policies to pages of listed blocks, if it does not bring a page to a policy
from outside, and if a scan that goes on by it comes to listed blocks. -/
theorem Effect.registered {capacities : List Nat} (h : Effect e c e') (ht : e.Tidy)
    (hreg : Registered capacities e) (hadd : ∀ policy page, c ≠ .request (.report .add policy page))
    (hnext : ∀ n, c = .request (.next n) →
      (e.next n).2 = e ∨ ∃ m, Steps m (∅, e) (∅, (e.next n).2)) :
    Registered capacities e' := by
  cases h with
  | steps _ hs => exact hs.registered ht hreg
  | @next n =>
    rcases hnext n rfl with hsame | ⟨m, hs⟩
    · exact hsame.symm ▸ hreg
    · exact hs.registered ht hreg
  | giveUp _ hm he => exact registered_give_up ht hm hreg he
  | boot hm => exact registered_restore _ ht hm hreg
  | make _ hstore he =>
    obtain ⟨-, -, hpolicies, hlists⟩ := tidy_addMap ht hstore he
    exact hreg.of_policies hpolicies fun i r b hl => ⟨b, (hlists i r b).2 hl, rfl, rfl⟩
  | evict => exact registered_evict _ hreg
  | add => exact absurd rfl (hadd _ _)
  | hit =>
    refine hreg.tell (policies_hitPage _ _ _) (fun q _ => ?_)
      ((paging_hitPage _ _ _).retains ht 0).lists
    exact ⟨q.capacity_hit _, fun hv => hv.hit _, fun _ x hx => Or.inl (q.pages_hit _ ▸ hx)⟩
  | remove =>
    refine hreg.tell (policies_removePage _ _ _) (fun q _ => ?_)
      ((paging_removePage _ _ _).retains ht 0).lists
    exact ⟨q.capacity_remove _, fun hv => hv.remove _,
      fun hv x hx => Or.inl ((Policy.mem_pages_remove hv).1 hx).1⟩
  | aside haside => exact hreg.of_policies haside.policies (haside.paging.retains ht 0).lists

omit [Wire K] [Wire V] [Sized K] [Sized V] in
theorem openScan_cases {first last : Option K} (ht : e.Tidy)
    (h : e.openScan m first last = .ok e') :
    ∃ s, e.Roams m s ∧ e' = { e with scans := e.scans ++ [s] } := by
  obtain ⟨s, hscan, rfl⟩ := openScan_eq_ok h
  exact ⟨s, .scan ht hscan, rfl⟩

omit [Wire K] [Wire V] [LE K] [DecidableLE K] [Sized K] [Sized V] in
theorem scans_addMap (sizing : Sizing) (policy store : Nat) (e : Engine K V) :
    ((e.addMap sizing policy store).toOption.getD e).scans = e.scans := by
  unfold addMap
  rcases sizing.budget with cause | budget <;> rfl

/-- What a request that is no step or end of a scan does to the scans: it leaves them or it opens
one. -/
theorem scans_perform (ht : e.Tidy) (hnext : ∀ n, q ≠ .next n) (hclose : ∀ n, q ≠ .closeScan n) :
    ((e.perform q).2.scans = e.scans ∧ ∀ m first last, q = .openScan m first last →
      (e.perform q).1 ≠ .done) ∨
    ∃ m first last s, q = .openScan m first last ∧ (e.perform q).1 = .done ∧ e.Roams m s ∧
      (e.perform q).2 = { e with scans := e.scans ++ [s] } := by
  cases q with
  | next n => exact absurd rfl (hnext n)
  | closeScan n => exact absurd rfl (hclose n)
  | openScan m first last =>
    rcases hopen : e.openScan m first last with cause | e₁
    · have hperform : e.perform (.openScan m first last) = (.failed cause, e) := by
        simp only [perform, hopen]
      rw [hperform]
      exact Or.inl ⟨rfl, fun _ _ _ _ => by simp⟩
    · have hperform : e.perform (.openScan m first last) = (.done, e₁) := by
        simp only [perform, hopen]
      obtain ⟨s, hs, rfl⟩ := openScan_cases ht hopen
      rw [hperform]
      exact Or.inr ⟨m, first, last, s, rfl, rfl, hs, rfl⟩
  | make sizing policy =>
    refine Or.inl ⟨?_, fun _ _ _ hq => by simp at hq⟩
    have hsame := scans_addMap sizing policy 0 e
    rcases hmake : e.addMap sizing policy 0 with cause | e₁ <;> rw [hmake] at hsame
    · have hperform : e.perform (.make sizing policy) = (.failed cause, e) := by
        simp only [perform, hmake]
      rw [hperform]
    · have hperform : e.perform (.make sizing policy) = (.done, e₁) := by simp only [perform, hmake]
      rw [hperform]
      exact hsame
  | put m key value =>
    exact Or.inl ⟨(records_put m key value e).scans, fun _ _ _ hq => by simp at hq⟩
  | remove m key => exact Or.inl ⟨(records_remove m key e).scans, fun _ _ _ hq => by simp at hq⟩
  | get m key => exact Or.inl ⟨(records_get? m key e).scans, fun _ _ _ hq => by simp at hq⟩
  | search m key =>
    exact Or.inl ⟨(records_valuesBetween m (some key) (some key) e).scans,
      fun _ _ _ hq => by simp at hq⟩
  | contains m key => exact Or.inl ⟨(records_contains m key e).scans, fun _ _ _ hq => by simp at hq⟩
  | range m first last =>
    exact Or.inl ⟨(records_valuesBetween m first last e).scans, fun _ _ _ hq => by simp at hq⟩
  | checkpoint m => exact Or.inl ⟨(records_snapshot m e).scans, fun _ _ _ hq => by simp at hq⟩
  | clear m => exact Or.inl ⟨(extends_clear m e).scans, fun _ _ _ hq => by simp at hq⟩
  | drop m => exact Or.inl ⟨(extends_drop m e).scans, fun _ _ _ hq => by simp at hq⟩
  | evict page => exact Or.inl ⟨(extends_evict page e).scans, fun _ _ _ hq => by simp at hq⟩
  | report report policy page =>
    refine Or.inl ⟨?_, fun _ _ _ hq => by simp at hq⟩
    cases report
    · exact (extends_addPage policy page e).scans
    · exact (extends_hitPage policy page e).scans
    · exact (extends_removePage policy page e).scans
  | plan faults => exact Or.inl ⟨rfl, fun _ _ _ hq => by simp at hq⟩

/-- What a call does to the scans: it leaves them, or it opens, ends or goes on with one. -/
theorem scans_call (ht : e.Tidy) :
    ((e.call c).scans = e.scans ∧ ∀ m first last, c = .request (.openScan m first last) →
      (e.serve (.openScan m first last)).1 ≠ .done) ∨
    (∃ m first last s, c = .request (.openScan m first last) ∧
      (e.serve (.openScan m first last)).1 = .done ∧ e.Roams m s ∧
      e.call c = { e with scans := e.scans ++ [s] }) ∨
    (∃ n, c = .request (.closeScan n) ∧ e.call c = e.closeScan n) ∨
    ∃ n, c = .request (.next n) ∧ e.call c = (e.next n).2 := by
  cases c with
  | request q =>
    by_cases hnext : ∃ n, q = .next n
    · obtain ⟨n, rfl⟩ := hnext
      exact Or.inr (Or.inr (Or.inr ⟨n, rfl, by rw [call, serve_next]⟩))
    by_cases hclose : ∃ n, q = .closeScan n
    · obtain ⟨n, rfl⟩ := hclose
      exact Or.inr (Or.inr (Or.inl ⟨n, rfl, rfl⟩))
    rw [not_exists] at hnext hclose
    simp only [call, Call.request.injEq]
    by_cases htarget : q.target?.all (· < e.maps.length) = true
    · have hserve : e.serve q = e.perform q := by rw [serve, if_pos htarget]
      rw [hserve]
      rcases scans_perform ht hnext hclose with ⟨hsame, hdone⟩ |
        ⟨m, first, last, s, rfl, hdone, hs, he⟩
      · refine Or.inl ⟨hsame, fun m first last hq => ?_⟩
        subst hq
        exact hserve ▸ hdone m first last rfl
      · exact Or.inr (Or.inl ⟨m, first, last, s, rfl, hserve ▸ hdone, hs, he⟩)
    · have hserve : e.serve q = (.missing, e) := by rw [serve, if_neg htarget]
      rw [hserve]
      refine Or.inl ⟨rfl, fun m first last hq => ?_⟩
      subst hq
      simp [hserve]
  | make sizing policy store =>
    refine Or.inl ⟨?_, fun _ _ _ hc => by simp at hc⟩
    simp only [call]
    split
    · exact scans_addMap sizing policy store e
    · rfl
  | boot m snapshot =>
    refine Or.inl ⟨?_, fun _ _ _ hc => by simp at hc⟩
    simp only [call]
    split
    · exact (extends_restore m snapshot e).scans
    · rfl
  | plan store faults => exact Or.inl ⟨rfl, fun _ _ _ hc => by simp at hc⟩

end Engine

/-! ### Runs -/

namespace Watch

variable [Wire K] [Wire V] [LE K] [DecidableLE K] [Sized K] [Sized V]

/-- The maps are tidy, and the scans that are watched come to listed blocks. -/
structure Orderly (w : Watch K V) : Prop where
  stores : 0 < w.engine.stores.length
  tidy : w.engine.Tidy
  length : w.readers.length = w.engine.scans.length
  roams : ∀ (n m : Nat) (s : Scan K V), w.readers[n]? = some (some m) →
    w.engine.scans[n]? = some s → w.engine.Roams m s

/-- The watch is orderly, and the policies track pages of listed blocks only. -/
structure TracksListed (capacities : List Nat) (w : Watch K V) : Prop extends Orderly w where
  registered : w.engine.Registered capacities

variable {w : Watch K V} {c : Call K V} {cs : List (Call K V)} {capacities : List Nat}

omit [Wire K] [Wire V] [LE K] [DecidableLE K] [Sized K] [Sized V] in
theorem orderly_start (policies : List (Policy BlockRef)) (store : Store K V)
    (stores : List (Store K V)) (volume : Volume) :
    (start policies store stores volume).Orderly where
  stores := Nat.succ_pos _
  tidy m state hm := by simp [start] at hm
  length := rfl
  roams n m s hn := by simp [start] at hn

omit [Wire K] [Wire V] [LE K] [DecidableLE K] [Sized K] [Sized V] in
/-- No policy tracks any page at the start. -/
theorem tracksListed_start {policies : List (Policy BlockRef)} (h : ∀ p ∈ policies, p.Fresh)
    (store : Store K V) (stores : List (Store K V)) (volume : Volume) :
    (start policies store stores volume).TracksListed (policies.map (·.capacity)) where
  toOrderly := orderly_start policies store stores volume
  registered := by
    refine ⟨rfl, fun i q hq => (h q (List.mem_of_getElem? hq)).valid, fun i q hq page hpage => ?_⟩
    rw [(h q (List.mem_of_getElem? hq)).pages_eq] at hpage
    simp at hpage

omit [Wire K] [Wire V] [LE K] [DecidableLE K] [Sized K] [Sized V] in
theorem getElem?_giveUp (m n : Nat) (readers : List (Option Nat)) : (giveUp m readers)[n]? =
    (readers[n]?).map fun reader => if reader = some m then none else reader := by
  rw [giveUp, List.getElem?_map]

/-- A scan reads the map that it read before the call, which did not give up its blocks. -/
theorem readersAfter_eq (hopen : ∀ m first last, c = .request (.openScan m first last) →
      (w.engine.serve (.openScan m first last)).1 ≠ .done) :
    (w.readersAfter c).length = w.readers.length ∧
      ∀ n m : Nat, (w.readersAfter c)[n]? = some (some m) →
        w.readers[n]? = some (some m) ∧ ¬ c.GivesUp m := by
  have hgiveUp {i : Nat} (hc : ∀ m, c.GivesUp m → m = i) :
      (giveUp i w.readers).length = w.readers.length ∧ ∀ n m : Nat,
        (giveUp i w.readers)[n]? = some (some m) → w.readers[n]? = some (some m) ∧
          ¬ c.GivesUp m := by
    refine ⟨List.length_map .., fun n m hn => ?_⟩
    rw [getElem?_giveUp] at hn
    obtain ⟨reader, hreader, heq⟩ := Option.map_eq_some_iff.1 hn
    split at heq
    · simp at heq
    · rename_i hne
      subst heq
      exact ⟨hreader, fun hgives => hne (congrArg some (hc m hgives))⟩
  unfold readersAfter
  split
  · rename_i m first last
    have hne := hopen m first last rfl
    split
    · rename_i hdone
      exact absurd hdone hne
    · exact ⟨rfl, fun n i hn => ⟨hn, by simp [Call.GivesUp]⟩⟩
  · exact hgiveUp fun m hm => by simpa [Call.GivesUp, eq_comm] using hm
  · exact hgiveUp fun m hm => by simpa [Call.GivesUp, eq_comm] using hm
  · exact hgiveUp fun m hm => by simpa [Call.GivesUp, eq_comm] using hm
  · rename_i hclear hdrop hboot
    refine ⟨rfl, fun n m hn => ⟨hn, ?_⟩⟩
    rintro (rfl | rfl | ⟨snapshot, rfl⟩)
    · exact hclear m rfl
    · exact hdrop m rfl
    · exact hboot m snapshot rfl

omit [Sized K] [Sized V] in
/-- A punctual step of a scan is a step of the map that it reads, or there is no such scan. -/
theorem Orderly.next_cases (h : w.Orderly) {n : Nat} (hc : w.Punctual (.request (.next n))) :
    (w.engine.next n).2 = w.engine ∨ ∃ m s, w.readers[n]? = some (some m) ∧
      w.engine.scans[n]? = some s ∧ w.engine.Roams m s := by
  rcases hs : w.engine.scans[n]? with _ | s
  · exact Or.inl (by simp [Engine.next, hs])
  · obtain ⟨hlt, -⟩ := List.getElem?_eq_some_iff.1 hs
    have hreader := List.getElem?_eq_getElem (h.length ▸ hlt)
    cases hm : w.readers.get ⟨n, h.length ▸ hlt⟩ with
    | none => exact absurd (hreader.trans (congrArg some hm)) hc
    | some m =>
      have hreader' := hreader.trans (congrArg some hm)
      exact Or.inr ⟨m, s, hreader', rfl, h.roams n m s hreader' hs⟩

theorem Orderly.step (h : w.Orderly) (hc : w.Punctual c) : (w.step c).Orderly := by
  obtain ⟨htidy, hstores, hlists⟩ := (Engine.effect_call h.tidy h.stores c).tidy h.tidy h.stores
  have hkept {m : Nat} {s : Scan K V} (hgives : ¬ c.GivesUp m) (hs : w.engine.Roams m s) :
      (w.engine.call c).Roams m s := fun ref hr => by
    obtain ⟨b, hl⟩ := hs ref hr
    exact hlists m hgives ref b hl
  -- what happens to the scans: nothing, or one is opened, ended or gone on with
  rcases Engine.scans_call (c := c) h.tidy with ⟨hsame, hdone⟩ |
    ⟨m, first, last, s, rfl, hdone, hs, he⟩ | ⟨n, rfl, he⟩ | ⟨n, rfl, he⟩
  · obtain ⟨hlength, hreaders⟩ := readersAfter_eq hdone
    refine ⟨hstores, htidy, hlength.trans (h.length.trans (congrArg List.length hsame).symm),
      fun n m s hn hs => ?_⟩
    obtain ⟨hreader, hgives⟩ := hreaders n m hn
    exact hkept hgives (h.roams n m s hreader (hsame ▸ hs))
  · have hreaders : w.readersAfter (.request (.openScan m first last)) = w.readers ++ [some m] := by
      rw [readersAfter, hdone]
    have hscans : (w.engine.call (.request (.openScan m first last))).scans =
        w.engine.scans ++ [s] := by
      rw [he]
    refine ⟨hstores, htidy, ?_, fun n i s' hn hs' => ?_⟩
    · simp only [Watch.step, hreaders, hscans, List.length_append, h.length, List.length_singleton]
    · simp only [Watch.step, hreaders, hscans, Engine.getElem?_append_singleton, h.length] at hn hs'
      refine hkept (by simp [Call.GivesUp]) ?_
      split at hn
      · obtain rfl := Option.some.inj (Option.some.inj hn)
        rename_i hlast
        rw [if_pos hlast] at hs'
        exact Option.some.inj hs' ▸ hs
      · rename_i hlast
        rw [if_neg hlast] at hs'
        exact h.roams n i s' hn hs'
  · have hscans :
        (w.engine.call (.request (.closeScan n))).scans = w.engine.scans.modify n Scan.ended := by
      rw [he, Engine.closeScan]
    refine ⟨hstores, htidy, ?_, fun i m s hi hs => ?_⟩
    · simp only [Watch.step, hscans, List.length_modify]
      exact h.length
    · simp only [Watch.step, hscans, List.getElem?_modify] at hs
      obtain ⟨s', hs', rfl⟩ := Option.map_eq_some_iff.1 hs
      refine hkept (by simp [Call.GivesUp]) ?_
      split
      · exact .ended _ m s'
      · exact h.roams i m s' hi hs'
  · obtain ⟨-, hlength, hothers⟩ := Engine.next_frame n w.engine
    refine ⟨hstores, htidy, ?_, fun i m s hi hs => ?_⟩
    · simp only [Watch.step, he, hlength]
      exact h.length
    · simp only [Watch.step, he] at hs ⊢
      by_cases hne : i = n
      · subst hne
        rcases h.next_cases hc with hsame | ⟨m', s', hreader, hs', hroams⟩
        · rw [hsame] at hs ⊢
          exact h.roams i m s hi hs
        · obtain rfl : m = m' := Option.some.inj (Option.some.inj (hi.symm.trans hreader))
          exact (Engine.steps_next h.tidy hs' hroams).2 s hs
      · rw [hothers i hne] at hs
        exact he ▸ hkept (by simp [Call.GivesUp]) (h.roams i m s hi hs)

theorem TracksListed.step (h : w.TracksListed capacities) (hc : w.Timely c) :
    (w.step c).TracksListed capacities := by
  refine ⟨h.toOrderly.step hc.punctual, ?_⟩
  refine (Engine.effect_call h.tidy h.stores c).registered h.tidy h.registered
    (fun policy page hadd => ?_) fun n hn => ?_
  · simp [hadd, Timely] at hc
  · subst hn
    exact (h.toOrderly.next_cases hc.punctual).imp_right fun ⟨m, s, _, hs, hroams⟩ =>
      ⟨m, (Engine.steps_next h.tidy hs hroams).1⟩

/-- In a run of timely calls the policies track pages of listed blocks only. -/
theorem tracksListed_run (h : w.TracksListed capacities) (hcs : w.All Timely cs) :
    (w.run cs).TracksListed capacities := by
  induction hcs with
  | nil => exact h
  | cons hc _ ih => exact ih (h.step hc)

end Watch

end PagedMap
