import Mathlib
import PagedMap.Proofs.Order
import PagedMap.Proofs.Serve

/-!
# Maps answer like ordered maps

An engine that starts without maps over one page store answers every list of requests as the
reference does, as long as no call of the page store fails (`Engine.serveAll_accepted`).  Pages may
be evicted by their policies or by requests at any time, and the maps may share their policies.

The store keeps its pages in memory, or in a folder that is opened at the start (`Store.Ready`).
The numbers of the pages of a folder have 64 bits, and `limit` is the number of pages that it may
come to hold; nothing is limited in memory.
-/

namespace PagedMap

variable {K V : Type}

/-- The pages are in memory, or in a folder that was just opened and has numbers for `limit` more
pages. -/
def Store.Ready (limit : Option Nat) (volume : Volume) (s : Store K V) : Prop :=
  match s.backing with
  | .memory _ => True
  | .folder f => ∃ n ∈ limit, 0 < f.nextPage ∧ f.nextPage + n < UInt64.size ∧
      ∃ before, Folder.openAt before f.directory = .ok (f, volume)

namespace Engine

/-- An engine without maps over one page store. -/
def start (policies : List (Policy BlockRef)) (store : Store K V) (volume : Volume) : Engine K V :=
  { policies, stores := [store], volume }

/-- From `e` on the page store neither refused to read a page nor failed to write one. -/
def Undisturbed (e e' : Engine K V) : Prop :=
  e'.refusedLoads = e.refusedLoads ∧ e'.failedCreations = e.failedCreations

variable {e e' e'' : Engine K V} {policies : List (Policy BlockRef)} {store : Store K V}
  {volume : Volume} {limit : Option Nat}

theorem Undisturbed.split (h : Undisturbed e e'') (hs : e.events <:+ e'.events)
    (hs' : e'.events <:+ e''.events) : Undisturbed e e' ∧ Undisturbed e' e'' := by
  have hloads : e.refusedLoads ≤ e'.refusedLoads := List.Sublist.countP_le hs.sublist
  have hloads' : e'.refusedLoads ≤ e''.refusedLoads := List.Sublist.countP_le hs'.sublist
  have hcreations : e.failedCreations ≤ e'.failedCreations := List.Sublist.countP_le hs.sublist
  have hcreations' : e'.failedCreations ≤ e''.failedCreations := List.Sublist.countP_le hs'.sublist
  obtain ⟨hload, hcreation⟩ := h
  exact ⟨⟨by omega, by omega⟩, by omega, by omega⟩

variable [Wire K] [Wire V] [LE K] [DecidableLE K]

theorem Refused.not_undisturbed {q : Request K V} {a : Answer K V} (h : Refused q a e e') :
    ¬ Undisturbed e e' := by
  obtain ⟨m, -, ⟨-, hunread⟩ | ⟨cause, -, -, hunwritten⟩⟩ := h
  · exact fun hun => hunread.refusedLoads_lt.ne' hun.1
  · exact fun hun => hunwritten.failedCreations_lt.ne' hun.2

/-! ### The start -/

theorem allHold_start (h : store.Ready limit volume) :
    (start policies store volume).AllHold limit := by
  refine .of_holds ⟨store, rfl, ?_⟩ fun m state hm => by simp [start] at hm
  have hlimit : limit.map (· - (start policies store volume).creations) = limit := by
    cases limit <;> rfl
  show Store.Roomy (limit.map (· - (start policies store volume).creations)) volume store
  rw [hlimit]
  unfold Store.Ready at h
  unfold Store.Roomy
  cases hbacking : store.backing with
  | memory pages => trivial
  | folder f =>
    rw [hbacking] at h
    obtain ⟨n, hn, hpos, hroom, before, hopen⟩ := h
    exact ⟨n, hn, Folder.roomy_openAt hopen hpos hroom⟩

/-! ### Runs -/

variable [Sized K] [Sized V] [Lossless K] [Lossless V] [Std.IsLinearOrder K]

omit [Lossless K] [Lossless V] [Std.IsLinearOrder K] in
theorem serveAll_cons {q : Request K V} {qs : List (Request K V)} {as : List (Answer K V)}
    (h : e.serveAll (q :: qs) = (as, e')) :
    ∃ a e₁ as', e.serve q = (a, e₁) ∧ e₁.serveAll qs = (as', e') ∧ as = a :: as' := by
  obtain ⟨rfl, rfl⟩ := Prod.mk.inj h
  exact ⟨_, _, _, rfl, rfl, rfl⟩

omit [Lossless K] [Lossless V] [Std.IsLinearOrder K] in
theorem suffix_serveAll {qs : List (Request K V)} {as : List (Answer K V)}
    (h : e.serveAll qs = (as, e')) : e.events <:+ e'.events := by
  induction qs generalizing e as with
  | nil =>
    obtain ⟨-, rfl⟩ := Prod.mk.inj h
    exact List.suffix_refl _
  | cons q qs ih =>
    obtain ⟨-, rfl⟩ := Prod.mk.inj h
    exact (serve_frame e q).1.trans (ih rfl)

omit [Lossless K] [Lossless V] [Std.IsLinearOrder K] in
theorem length_serveAll (e : Engine K V) (qs : List (Request K V)) :
    (e.serveAll qs).1.length = qs.length := by
  induction qs generalizing e with
  | nil => rfl
  | cons q qs ih => exact congrArg (· + 1) (ih _)

omit [Lossless K] [Lossless V] [Std.IsLinearOrder K] in
theorem serveAll_append_singleton (e : Engine K V) (qs : List (Request K V)) (q : Request K V) :
    e.serveAll (qs ++ [q]) = ((e.serveAll qs).1 ++ [((e.serveAll qs).2.serve q).1],
      ((e.serveAll qs).2.serve q).2) := by
  induction qs generalizing e with
  | nil => rfl
  | cons q' qs ih =>
    simp only [List.cons_append, serveAll, ih]

/-- What every request of a list keeps is kept by all of them. -/
theorem serveAll_induct {P : Engine K V → Prop} {qs : List (Request K V)} {as : List (Answer K V)}
    (hstep : ∀ q ∈ qs, ∀ (a : Answer K V) (e e' : Engine K V), e.AllHold limit →
      Served limit q a e e' → P e → P e')
    (hs : e.AllHold limit) (h : P e) (hrun : e.serveAll qs = (as, e')) (hw : e'.Within limit) :
    e'.AllHold limit ∧ P e' := by
  induction qs generalizing e as with
  | nil =>
    obtain ⟨rfl, rfl⟩ := Prod.mk.inj hrun
    exact ⟨hs, h⟩
  | cons q qs ih =>
    obtain ⟨a, e₁, as', hfirst, hrest, rfl⟩ := serveAll_cons hrun
    have hsuffix := suffix_serveAll hrest
    have hserved := serve_spec hs (hw.of_suffix hsuffix) hfirst
    exact ih (fun q hq => hstep q (List.mem_cons_of_mem _ hq)) hserved.allHold
      (hstep q List.mem_cons_self a e e₁ hs hserved h) hrest

/-- An engine whose maps hold their layouts answers as its mirror does, as long as no call of the
page store fails. -/
theorem serveAll_spec {qs : List (Request K V)} {as : List (Answer K V)} (hs : e.AllHold limit)
    (hrun : e.serveAll qs = (as, e')) (hw : e'.Within limit) (hun : Undisturbed e e') :
    e'.AllHold limit ∧ e.mirror.AcceptsAll qs as ∧ e'.mirror = e.mirror.afterAll qs := by
  -- `AllHold` carries the induction: a request needs it to be answered right, and keeps it
  induction qs generalizing e as with
  | nil =>
    obtain ⟨rfl, rfl⟩ := Prod.mk.inj hrun
    exact ⟨hs, .nil _, rfl⟩
  | cons q qs ih =>
    obtain ⟨a, e₁, as', hfirst, hrest, rfl⟩ := serveAll_cons hrun
    have hsuffix := suffix_serveAll hrest
    have hserved := serve_spec hs (hw.of_suffix hsuffix) hfirst
    obtain ⟨hun₁, hun₂⟩ := hun.split hserved.events hsuffix
    obtain ⟨haccepts, hmirror⟩ := hserved.outcome.resolve_left fun h => h.1.not_undisturbed hun₁
    obtain ⟨hholds, hall, hafter⟩ := ih hserved.allHold hrest hun₂
    rw [hmirror] at hall hafter
    exact ⟨hholds, .cons haccepts hall, hafter⟩

/-- Maps that share their policies and one page store answer every list of requests like ordered
maps that start empty, with any pages evicted at any time, as long as no call of the page store
fails.  Afterwards their contents are those of the ordered maps, in ascending order of the keys. -/
theorem serveAll_accepted {qs : List (Request K V)} {as : List (Answer K V)}
    (hready : store.Ready limit volume)
    (hrun : (start policies store volume).serveAll qs = (as, e')) (hw : e'.Within limit)
    (hloads : e'.refusedLoads = 0) (hcreations : e'.failedCreations = 0) :
    Reference.AcceptsAll [] qs as ∧ e'.mirror = Reference.afterAll [] qs ∧
      ∀ s ∈ e'.mirror, s.entries.Sorted := by
  obtain ⟨-, haccepts, hafter⟩ := serveAll_spec (allHold_start hready) hrun hw ⟨hloads, hcreations⟩
  have hsorted : ∀ s ∈ Reference.afterAll (K := K) (V := V) [] qs, s.entries.Sorted :=
    Reference.sorted_afterAll (by simp) qs
  exact ⟨haccepts, hafter, hafter ▸ hsorted⟩

/-- Two maps over one clock for one page: blocks are split, evicted and read again. -/
theorem serveAll_accepted_two_maps :
    let sizing : Sizing := { maxBlockSize := 12, entryOverhead := 2, blockOverhead := 0 }
    let qs : List (Request (Shape.uint .w8).Datum (Shape.uint .w8).Datum) :=
      [.make sizing 0, .make sizing 0, .put 0 5#8 1#8, .put 1 5#8 2#8, .put 0 3#8 3#8,
        .put 0 9#8 4#8, .put 0 7#8 5#8, .evict ⟨⟨1, 0⟩, 0⟩, .range 0 (some 4#8) none,
        .remove 0 5#8, .get 1 5#8, .checkpoint 0, .search 0 9#8, .clear 1, .contains 1 5#8]
    let run := (start [.clock (.empty 1)] .inMemory {}).serveAll qs
    run.2.refusedLoads = 0 ∧ run.2.failedCreations = 0 ∧ Reference.AcceptsAll [] qs run.1 := by
  intro sizing qs run
  have hloads : run.2.refusedLoads = 0 := by decide +kernel
  have hcreations : run.2.failedCreations = 0 := by decide +kernel
  have hready : (Store.inMemory (K := (Shape.uint .w8).Datum) (V := (Shape.uint .w8).Datum)).Ready
      none {} := trivial
  have hrun : (start [.clock (.empty 1)] .inMemory {}).serveAll qs = (run.1, run.2) :=
    Prod.mk.eta.symm
  have hw : run.2.Within none := Engine.within_none _
  exact ⟨hloads, hcreations, (serveAll_accepted hready hrun hw hloads hcreations).1⟩

end Engine

end PagedMap
