import Mathlib
import PagedMap.Journal
import PagedMap.Proofs.Entries
import PagedMap.Sizing
import PagedMap.Sized
import PagedMap.Snapshot
import PagedMap.Store

/-!
# Ordered maps as a reference

What can be asked of maps that share their replacement policies and one page store (`Request`), and
what a list of plain ordered maps answers to it (`Reference.Accepts`, `Reference.after`).  An
ordered map of the reference knows the budget of its blocks and the overhead of its entries, since
they decide which entries are refused, and nothing else of blocks, pages or policies.

Where a snapshot is taken the reference only says that there is one, and it says nothing about the
steps of open scans.

An ordered map lists its entries in ascending order of the keys (`Reference.sorted_afterAll`).  What
is found under a key after an entry was stored or removed is said by `Entries.value?_insert` and
`Entries.value?_erase`, and what is found within a range by `Entries.mem_between`.
-/

namespace PagedMap

variable {K V : Type}

/-- What can be asked of maps that share one page store. -/
inductive Request (K V : Type) where
  | make (sizing : Sizing) (policy : Nat)
  | put (m : Nat) (key : K) (value : V)
  | remove (m : Nat) (key : K)
  | get (m : Nat) (key : K)
  | search (m : Nat) (key : K)
  | contains (m : Nat) (key : K)
  | range (m : Nat) (first last : Option K)
  | checkpoint (m : Nat)
  | clear (m : Nat)
  | drop (m : Nat)
  | openScan (m : Nat) (first last : Option K)
  | next (scan : Nat)
  | closeScan (scan : Nat)
  /-- A page is asked to leave memory. -/
  | evict (page : Page BlockRef)
  /-- A policy is told about a page by somebody else than the maps. -/
  | report (report : Report) (policy : Nat) (page : Page BlockRef)
  /-- Refusals of the page store are planned. -/
  | plan (faults : Faults)

/-- The map that a request is for, if there is one. -/
def Request.target? : Request K V → Option Nat
  | put m .. | remove m _ | get m _ | search m _ | contains m _ | range m ..
  | checkpoint m | clear m
  | drop m | openScan m .. => some m
  | make .. | next _ | closeScan _ | evict _ | report .. | plan _ => none

/-- What a request is answered. -/
inductive Answer (K V : Type) where
  | done
  | value (v : Option V)
  | values (vs : List V)
  | truth (b : Bool)
  | snapshot (s : Snapshot K)
  | failed (cause : MapError)
  /-- There is no such map. -/
  | missing
  deriving DecidableEq

/-- An ordered map and the limits that decide which entries it takes. -/
structure OrderedMap (K V : Type) where
  entryOverhead : Nat
  budget : Nat
  entries : Entries K V := []
  deriving DecidableEq

namespace OrderedMap

variable [LE K] [DecidableLE K] [Sized K] [Sized V]

/-- The bytes charged to an entry. -/
def weight (s : OrderedMap K V) (key : K) (value : V) : Nat :=
  Sized.size key + Sized.size value + s.entryOverhead

/-- Whether the answer to a request for the map is right. -/
def Accepts (s : OrderedMap K V) : Request K V → Answer K V → Prop
  | .put _ key value, a =>
    a = if s.budget < s.weight key value then .failed (.entryTooLarge (s.weight key value) s.budget)
      else .value (s.entries.value? key)
  | .remove _ key, a | .get _ key, a => a = .value (s.entries.value? key)
  | .search _ key, a => a = .values (s.entries.value? key).toList
  | .contains _ key, a => a = .truth (s.entries.value? key).isSome
  | .range _ first last, a =>
    a = if first.isNone ∧ last.isNone then .failed .unboundedRange
      else .values ((s.entries.between first last).map (·.2))
  | .openScan _ first last, a =>
    a = if first.isNone ∧ last.isNone then .failed .unboundedRange else .done
  | .checkpoint _, a => ∃ snapshot, a = .snapshot snapshot
  | _, a => a = .done

/-- The map after a request. -/
def after (s : OrderedMap K V) : Request K V → OrderedMap K V
  | .put _ key value =>
    if s.budget < s.weight key value then s else { s with entries := s.entries.insert key value }
  | .remove _ key => { s with entries := s.entries.erase key }
  | .clear _ | .drop _ => { s with entries := [] }
  | _ => s

/-- A request that an ordered map takes to fail changes nothing, and the page store has nothing to
do with its failure. -/
theorem after_of_failed {s : OrderedMap K V} {q : Request K V} {cause : MapError}
    (h : s.Accepts q (.failed cause)) : s.after q = s ∧ ∀ c, cause ≠ .storage c := by
  cases q <;> simp only [Accepts, after] at h ⊢
  case put m key value =>
    split at h
    · rename_i hbig
      obtain rfl := Answer.failed.inj h
      exact ⟨if_pos hbig, by simp⟩
    · simp at h
  case range m first last | openScan m first last =>
    split at h
    · obtain rfl := Answer.failed.inj h
      exact ⟨trivial, by simp⟩
    · simp at h
  all_goals simp at h

end OrderedMap

/-- Ordered maps, numbered in the order in which they came to be. -/
abbrev Reference (K V : Type) : Type := List (OrderedMap K V)

namespace Reference

variable [LE K] [DecidableLE K] [Sized K] [Sized V]

/-- Whether the answer to a request is right. -/
def Accepts (r : Reference K V) (q : Request K V) (a : Answer K V) : Prop :=
  match q.target? with
  | some m =>
    match r[m]? with
    | some s => s.Accepts q a
    | none => a = .missing
  | none =>
    match q with
    | .make sizing _ =>
      match sizing.budget with
      | .ok _ => a = .done
      | .error cause => a = .failed cause
    | .next _ => True
    | _ => a = .done

/-- The maps after a request. -/
def after (r : Reference K V) (q : Request K V) : Reference K V :=
  match q.target? with
  | some m => r.modify m (·.after q)
  | none =>
    match q with
    | .make sizing _ =>
      match sizing.budget with
      | .ok budget => r ++ [{ entryOverhead := sizing.entryOverhead, budget }]
      | .error _ => r
    | _ => r

/-- The maps after all requests of a list. -/
def afterAll (r : Reference K V) (qs : List (Request K V)) : Reference K V := qs.foldl after r

/-- The answers to the requests of a list are right. -/
inductive AcceptsAll : Reference K V → List (Request K V) → List (Answer K V) → Prop
  | nil (r : Reference K V) : AcceptsAll r [] []
  | cons {r : Reference K V} {q : Request K V} {a : Answer K V} {qs : List (Request K V)}
      {as : List (Answer K V)} (h : r.Accepts q a) (hs : AcceptsAll (r.after q) qs as) :
      AcceptsAll r (q :: qs) (a :: as)

variable {r : Reference K V} {q : Request K V}

/-- A request that the reference takes to fail changes nothing, and the page store has nothing to do
with its failure, unless it is a step of a scan. -/
theorem after_of_failed {cause : MapError} (h : r.Accepts q (.failed cause)) :
    r.after q = r ∧ ((∃ n, q = .next n) ∨ ∀ c, cause ≠ .storage c) := by
  unfold Accepts at h
  unfold after
  split at h
  · rename_i m hq
    cases hm : r[m]? with
    | none => simp [hm] at h
    | some s =>
      simp only [hm] at h
      obtain ⟨hsame, hcause⟩ := OrderedMap.after_of_failed h
      obtain ⟨hlt, rfl⟩ := List.getElem?_eq_some_iff.1 hm
      refine ⟨?_, Or.inr hcause⟩
      rw [List.modify_eq_set_getElem?, hm]
      exact (congrArg (r.set m) hsame).trans (List.set_getElem_self hlt)
  · rename_i hq
    cases q <;> dsimp only at h ⊢
    case make sizing policy =>
      rcases hbudget : sizing.budget with c | budget <;> rw [hbudget] at h
      · obtain rfl := Answer.failed.inj h
        refine ⟨rfl, Or.inr fun c' hc => ?_⟩
        rw [Sizing.budget] at hbudget
        split at hbudget <;> simp_all
      · simp at h
    case next n => exact ⟨rfl, Or.inl ⟨n, rfl⟩⟩
    all_goals simp at h

variable [Std.IsLinearOrder K]

theorem sorted_after (h : ∀ s ∈ r, s.entries.Sorted) (q : Request K V) :
    ∀ s ∈ r.after q, s.entries.Sorted := by
  have hmap (s : OrderedMap K V) (hs : s.entries.Sorted) : (s.after q).entries.Sorted := by
    unfold OrderedMap.after
    split
    · split
      · exact hs
      · exact hs.insert
    · exact hs.erase
    · exact List.Pairwise.nil
    · exact List.Pairwise.nil
    · exact hs
  unfold after
  split
  · rename_i m hq
    intro s hs
    obtain ⟨i, hi⟩ := List.mem_iff_getElem?.1 hs
    rw [List.getElem?_modify] at hi
    obtain ⟨s', hs', rfl⟩ := Option.map_eq_some_iff.1 hi
    have hsorted := h s' (List.mem_of_getElem? hs')
    split
    · exact hmap s' hsorted
    · exact hsorted
  · split
    · split
      · rw [List.forall_mem_append, List.forall_mem_singleton]
        exact ⟨h, List.Pairwise.nil⟩
      · exact h
    · exact h

/-- The keys of every ordered map ascend strictly. -/
theorem sorted_afterAll (h : ∀ s ∈ r, s.entries.Sorted) (qs : List (Request K V)) :
    ∀ s ∈ r.afterAll qs, s.entries.Sorted := by
  induction qs generalizing r with
  | nil => exact h
  | cons q qs ih => exact ih (sorted_after h q)

end Reference

end PagedMap
