import Mathlib
import PagedMap.Proofs.Order
import PagedMap.Proofs.Session

/-!
# Failures change nothing

Any call of the page store may be refused, also one for a page that a policy evicts.  A request that
fails leaves the contents of all maps, their blocks, and the bounds and sizes of these
(`Engine.Unchanged`).  It fails because of the page store only if a block that it needs could not be
read, or a block of a snapshot could not be written; if only evictions could not write their blocks,
the request gets its answer and no entry is lost.

A block that could not be read stays out of memory, and one that could not be written stays in
memory and dirty, at its old page (`Engine.persist_error`, `Engine.unload_error`).  As soon as no
more calls are refused, all answers are those of the ordered maps with the contents there were
(`Session.failed_serve`).
-/

namespace PagedMap

variable {K V : Type}

namespace Engine

variable [Wire K] [Wire V]

variable {e e' : Engine K V} {ref : BlockRef} {b : Block K V} {cause : MapError}

/-! ### Blocks that could not be read or written -/

/-- A block that could not be written stays in memory and dirty. -/
theorem persist_error (hb : e.blocks[ref]? = some b)
    (h : Act.run (persist ref) e = (.error cause, e')) :
    b.entries.isSome = true ∧ b.dirty = true ∧ e'.blocks = e.blocks := by
  rcases persist_cases h with ⟨hok, -⟩ | ⟨b', es, hb', hes, hdirty, hcreate⟩
  · simp at hok
  obtain rfl := Option.some.inj (hb.symm.trans hb')
  rcases hcreate with ⟨c, hcreate, -⟩ | ⟨page, e₁, -, hok, -⟩
  · exact ⟨by simp [hes], hdirty, blocks_createPage hcreate⟩
  · simp at hok

/-- A block that was to leave memory and could not be written stays in memory and dirty.  Its policy
does not have its page any more. -/
theorem unload_error {page : Nat} {c : StoreError} (hb : e.blocks[ref]? = some b)
    (h : Act.run (unload ref page) e = (.error (.storage c), e')) :
    b.entries.isSome = true ∧ b.dirty = true ∧
      e'.blocks = e.blocks.set ref { b with tracked := false } := by
  rcases unload_cases h with ⟨-, hr | ⟨b', hr⟩⟩ | ⟨b', es, hb', hes, hpersist⟩
  · simp at hr
  · simp at hr
  obtain rfl := Option.some.inj (hb.symm.trans hb')
  have hlt : ref < e.blocks.length := (List.getElem?_eq_some_iff.1 hb).1
  have hset : (e.setBlock ref { b with tracked := false }).blocks[ref]? =
      some { b with tracked := false } := List.getElem?_set_self hlt
  rcases hpersist with ⟨cause, hpersist, -⟩ | ⟨e₁, -, hok, -⟩
  · exact persist_error hset hpersist
  · simp at hok

variable [LE K] [DecidableLE K]

/-- A block that could not be read stays out of memory. -/
theorem access_error_blocks (h : Act.run (access ref b) e = (.error cause, e')) :
    b.entries = none ∧ e'.blocks = e.blocks := by
  obtain ⟨hnone, c, -, hload⟩ := access_error h
  exact ⟨hnone, (loadPage_cases hload).1⟩

/-! ### Requests that fail -/

/-- The maps have the same contents, and the same blocks with the same bounds and sizes, wherever
the entries of these are. -/
structure Unchanged (e e' : Engine K V) : Prop where
  mirror : e'.mirror = e.mirror
  directories : e'.maps.map (·.directory) = e.maps.map (·.directory)
  layouts : ∀ m, e'.layout m = e.layout m

variable [Sized K] [Sized V] {q : Request K V} {a : Answer K V} {limit : Option Nat}

/-- A request that fails changes nothing. -/
theorem Served.unchanged (h : Served limit q (.failed cause) e e') (hs : e.AllHold limit) :
    e.Unchanged e' := by
  have hmirror : e'.mirror = e.mirror := by
    rcases h.outcome with ⟨-, hsame⟩ | ⟨haccepts, hafter⟩
    · exact hsame
    · exact hafter.trans (Reference.after_of_failed haccepts).1
  refine ⟨hmirror, List.ext_getElem? fun m => ?_, h.layouts cause rfl⟩
  have hlength : e'.maps.length = e.maps.length := by
    simpa [Engine.mirror] using congrArg List.length hmirror
  rw [List.getElem?_map, List.getElem?_map]
  rcases hm : e.maps[m]? with _ | state
  · rw [List.getElem?_eq_none (hlength ▸ List.getElem?_eq_none_iff.1 hm)]
  · have hlt : m < e'.maps.length := hlength ▸ (List.getElem?_eq_some_iff.1 hm).1
    have hm' := List.getElem?_eq_getElem hlt
    rw [hm', Option.map_some, Option.map_some, (h.allHold.holds m _ hm').directory,
      (hs.holds m _ hm).directory, h.layouts cause rfl]

/-- A request other than a step of a scan that fails because of the page store was refused to read a
block or could not write one for a snapshot. -/
theorem Served.refused {c : StoreError} (h : Served limit q (.failed (.storage c)) e e')
    (hnext : ∀ n, q ≠ .next n) : Refused q (.failed (.storage c)) e e' := by
  rcases h.outcome with ⟨hrefused, -⟩ | ⟨haccepts, -⟩
  · exact hrefused
  · rcases (Reference.after_of_failed haccepts).2 with ⟨n, hn⟩ | hcause
    · exact absurd hn (hnext n)
    · exact absurd rfl (hcause c)

/-- A step of a scan fails if a block could not be read. -/
theorem serve_next_failed {n : Nat} (h : e.serve (.next n) = (.failed cause, e')) :
    ∃ c, cause = .storage c ∧ e'.Missed c := by
  rw [serve_next] at h
  rcases hnext : e.next n with ⟨_ | c | v, e₁⟩ <;> rw [hnext] at h <;>
    obtain ⟨ha, rfl⟩ := Prod.mk.inj h
  · simp [Answer.ofStep] at ha
  · obtain rfl := Answer.failed.inj ha
    exact next_error hnext
  · simp [Answer.ofStep] at ha

/-! ### New scans -/

variable [Lossless K] [Lossless V] [Std.IsLinearOrder K] {m n : Nat}

/-- A scan that nothing disturbs gives its values one after the other, and nothing when they are
over. -/
theorem Pending.serveAll {vs : List V} {k : Nat} {as : List (Answer K V)} (hp : e.Pending n m vs)
    (hs : e.AllHold limit) (hm : m < e.maps.length)
    (h : e.serveAll (List.replicate k (.next n)) = (as, e')) (hw : e'.Within limit)
    (hun : Undisturbed e e') : as = (List.range k).map fun i => .value vs[i]? := by
  induction k generalizing e vs as with
  | zero =>
    obtain ⟨rfl, -⟩ := Prod.mk.inj h
    rfl
  | succ k ih =>
    rw [List.replicate_succ] at h
    obtain ⟨a, e₁, as', hfirst, hrest, rfl⟩ := serveAll_cons h
    have hsuffix := suffix_serveAll hrest
    have hw₁ := hw.of_suffix hsuffix
    have hserved := serve_spec hs hw₁ hfirst
    obtain ⟨hun₁, hun₂⟩ := hun.split hserved.events hsuffix
    rcases hnext : e.next n with ⟨value, e₁'⟩
    rw [serve_next, hnext] at hfirst
    obtain ⟨rfl, rfl⟩ := Prod.mk.inj hfirst
    obtain ⟨state, hstate⟩ : ∃ state, e.maps[m]? = some state := ⟨_, List.getElem?_eq_getElem hm⟩
    rcases next_spec hs hw₁ hstate hp hnext with ⟨-, hunread⟩ | ⟨rfl, hp₁⟩
    · exact absurd hun₁.1 hunread.refusedLoads_lt.ne'
    · have hm₁ : m < e₁'.maps.length := hm.trans_le hserved.length_le
      have ha : (Answer.ofStep (vs.head?.map .ok) : Answer K V) = .value vs.head? := by
        cases vs <;> rfl
      rw [ih hp₁ hserved.allHold hm₁ hrest hun₂, ha, List.range_succ_eq_map, List.map_cons,
        List.map_map, List.head?_eq_getElem?]
      simp only [List.getElem?_tail]
      rfl

/-- A new scan that nothing disturbs gives the values of its range. -/
theorem serveAll_openScan {first last : Option K} {k : Nat} {as : List (Answer K V)}
    (hs : e.AllHold limit) (hm : m < e.maps.length) (hbound : ¬ (first.isNone ∧ last.isNone))
    (h : e.serveAll (.openScan m first last :: List.replicate k (.next e.scans.length)) = (as, e'))
    (hw : e'.Within limit) (hun : Undisturbed e e') :
    as = .done :: (List.range k).map fun i =>
      .value ((Entries.between (e.contents m) first last).map (·.2))[i]? := by
  obtain ⟨state, hstate⟩ : ∃ state, e.maps[m]? = some state := ⟨_, List.getElem?_eq_getElem hm⟩
  obtain ⟨e₁, hopen, hp⟩ := openScan_spec hs hstate hbound
  have hserve : e.serve (.openScan m first last) = (.done, e₁) := by
    simp [serve, Request.target?, perform, hm, hopen]
  obtain ⟨a, e₁', as', hfirst, hrest, rfl⟩ := serveAll_cons h
  obtain ⟨rfl, rfl⟩ := Prod.mk.inj (hserve.symm.trans hfirst)
  have hsuffix := suffix_serveAll hrest
  have hserved := serve_spec hs (hw.of_suffix hsuffix) hserve
  have hk : Keeps limit e e₁ := keeps_openScan hopen
  have hp₁ : e₁.Pending e.scans.length m ((Entries.between (e.contents m) first last).map (·.2)) :=
    hp
  rw [hp₁.serveAll hserved.allHold (hk.maps ▸ hm) hrest hw (hun.split hserved.events hsuffix).2]

end Engine

namespace Session

variable [Wire K] [Wire V] [LE K] [DecidableLE K] [Std.IsLinearOrder K] [Sized K] [Sized V]
  [Lossless K] [Lossless V]

variable {limit : Option Nat} {policies : List (Policy BlockRef)} {store : Store K V}
  {volume : Volume} {before : List (Command K V)} {s : Session K V} {q : Request K V}
  {a : Answer K V} {e : Engine K V}

/-- In every state that a session comes to, with any calls of the page store refused before:
* A request that fails changes nothing.
* If it fails because of the page store, a block that it needs could not be read and is not in
  memory, or a block for a snapshot could not be written and is in memory, dirty and at its old
  page.
* Otherwise its answer and the contents afterwards are right, whatever became of evictions.
* A block that cannot be read or written, for a request or for an eviction, stays as it is.
* As long as no more calls fail, all further requests, the same one included, are answered like
  ordered maps with the same contents answer them, and a new scan gives the values of its range. -/
theorem failed_serve (hready : store.Ready limit volume)
    (hrun : (start policies store volume).run before = s) (h : s.engine.serve q = (a, e))
    (hw : e.Within limit) :
    (∀ cause, a = .failed cause → s.engine.Unchanged e) ∧
    (∀ c, a = .failed (.storage c) →
      Engine.Refused q a s.engine e ∨ (∃ n, q = .next n) ∧ e.Missed c) ∧
    ((∀ c, a ≠ .failed (.storage c)) →
      s.engine.mirror.Accepts q a ∧ e.mirror = s.engine.mirror.after q) ∧
    (∀ (ref : BlockRef) (b : Block K V) (e₁ e₂ : Engine K V), e₁.blocks[ref]? = some b →
      (∀ cause, Act.run (Engine.access ref b) e₁ = (.error cause, e₂) →
        b.entries = none ∧ e₂.blocks = e₁.blocks) ∧
      (∀ cause, Act.run (Engine.persist ref) e₁ = (.error cause, e₂) →
        b.entries.isSome = true ∧ b.dirty = true ∧ e₂.blocks = e₁.blocks) ∧
      ∀ page c, Act.run (Engine.unload ref page) e₁ = (.error (.storage c), e₂) →
        b.entries.isSome = true ∧ b.dirty = true ∧
          e₂.blocks = e₁.blocks.set ref { b with tracked := false }) ∧
    (∀ qs as e', e.serveAll qs = (as, e') → e'.Within limit → Engine.Undisturbed e e' →
      e.mirror.AcceptsAll qs as ∧ e'.mirror = e.mirror.afterAll qs) ∧
    ∀ m first last k as e', m < e.maps.length → ¬ (first.isNone ∧ last.isNone) →
      e.serveAll (.openScan m first last :: List.replicate k (.next e.scans.length)) = (as, e') →
      e'.Within limit → Engine.Undisturbed e e' →
      as = .done :: (List.range k).map fun i =>
        .value ((Entries.between (e.contents m) first last).map (·.2))[i]? := by
  subst hrun
  have hs := (goes_run (documented_start hready)
    (hw.of_suffix (Engine.suffix_serve h))).documented.engine
  have hserved := Engine.serve_spec hs hw h
  refine ⟨?_, ?_, ?_, ?_, ?_, ?_⟩
  · rintro cause rfl
    exact hserved.unchanged hs
  · rintro c rfl
    by_cases hnext : ∃ n, q = .next n
    · obtain ⟨n, rfl⟩ := hnext
      obtain ⟨c', hc, hmissed⟩ := Engine.serve_next_failed h
      obtain rfl := MapError.storage.inj hc
      exact Or.inr ⟨⟨n, rfl⟩, hmissed⟩
    · exact Or.inl (hserved.refused fun n hn => hnext ⟨n, hn⟩)
  · intro hother
    refine hserved.outcome.resolve_left fun hrefused => ?_
    obtain ⟨m, -, ⟨hfailed, -⟩ | ⟨c, -, hfailed, -⟩⟩ := hrefused.1
    · exact hother _ hfailed
    · exact hother c hfailed
  · intro ref b e₁ e₂ hb
    exact ⟨fun cause hrun => Engine.access_error_blocks hrun,
      fun cause hrun => Engine.persist_error hb hrun,
      fun page c hrun => Engine.unload_error hb hrun⟩
  · intro qs as e' hrun hw' hun
    exact (Engine.serveAll_spec hserved.allHold hrun hw' hun).2
  · intro m first last k as e' hm hbound hrun hw' hun
    exact Engine.serveAll_openScan hserved.allHold hm hbound hrun hw' hun

/-- A block could not be written when it had to leave memory, and then a removal was not let read
its block: nothing has changed, and the same removal is answered afterwards. -/
theorem failed_serve_refused :
    let sizing : Sizing := { maxBlockSize := 12, entryOverhead := 2, blockOverhead := 0 }
    let before : List (Command (Shape.uint .w8).Datum (Shape.uint .w8).Datum) :=
      [.request (.make sizing 0), .request (.put 0 5#8 1#8), .request (.put 0 3#8 2#8),
        .request (.put 0 9#8 3#8), .request (.put 0 7#8 4#8),
        .request (.plan { creates := .first 1 }), .request (.put 0 4#8 5#8), .request (.get 0 9#8),
        .request (.plan { loads := .first 1 })]
    let qs : List (Request (Shape.uint .w8).Datum (Shape.uint .w8).Datum) :=
      [.remove 0 4#8, .search 0 4#8]
    let s := (start [.clock (.empty 1)] .inMemory {}).run before
    let served := s.engine.serve (.remove 0 4#8)
    s.engine.failedCreations = 1 ∧ served.1 = .failed (.storage (.io .injected)) ∧
      s.engine.Unchanged served.2 ∧ served.2.mirror.AcceptsAll qs (served.2.serveAll qs).1 := by
  intro sizing before qs s served
  have hfailed : s.engine.failedCreations = 1 := by decide +kernel
  have ha : served.1 = .failed (.storage (.io .injected)) := by decide +kernel
  have hloads : (served.2.serveAll qs).2.refusedLoads = served.2.refusedLoads := by decide +kernel
  have hcreations : (served.2.serveAll qs).2.failedCreations = served.2.failedCreations := by
    decide +kernel
  have hready : (Store.inMemory (K := (Shape.uint .w8).Datum) (V := (Shape.uint .w8).Datum)).Ready
      none {} := trivial
  have hrun : (start [.clock (.empty 1)] .inMemory {}).run before = s := rfl
  have hserve : s.engine.serve (.remove 0 4#8) = (served.1, served.2) := Prod.mk.eta.symm
  clear_value s served
  have hw : served.2.Within none := Engine.within_none _
  obtain ⟨hunchanged, -, -, -, hlater, -⟩ := failed_serve hready hrun hserve hw
  refine ⟨hfailed, ha, hunchanged _ ha, ?_⟩
  exact (hlater qs _ _ Prod.mk.eta.symm (Engine.within_none _) ⟨hloads, hcreations⟩).1

end Session

end PagedMap
