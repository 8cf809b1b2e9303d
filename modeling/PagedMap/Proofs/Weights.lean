import Mathlib
import PagedMap.Proofs.Session
import PagedMap.Proofs.Sizes

/-!
# Sizes in sessions

A map that is restored from a snapshot takes over the sizes that are recorded in it.  If all maps
are restored from snapshots of maps with their own overhead only (`Session.Matches`), then these
sizes are the weights of the entries for the restored map as well, and so the recorded size of every
block remains the weight of its entries in the whole session (`Session.exact_run`).
-/

namespace PagedMap

variable {K V : Type}

/-- With the same overhead, a restored block exceeds the weight of its entries by as much as
before. -/
theorem Block.excess_revived [Sized K] [Sized V] {b : Block K V} {home : Home}
    (h : b.home.entryOverhead = home.entryOverhead) : (b.revived home).excess = b.excess := by
  have hweight : home.weight = b.home.weight (K := K) (V := V) := by
    funext entry
    rw [Home.weight, Home.weight, h]
  have hexcess : (b.revived home).excess = b.size - (b.held.map home.weight).sum := rfl
  rw [hexcess, hweight, Block.excess]

namespace Session

variable [Wire K] [Wire V] [LE K] [DecidableLE K] [Sized K] [Sized V]

/-- A map may be restored from snapshots of maps with the same overhead. -/
def Matches (s : Session K V) : Command K V → Prop
  | .boot m n => ∀ state ∈ s.engine.maps[m]?, ∀ x ∈ s.saved[n]?,
    x.entryOverhead = state.home.entryOverhead
  | _ => True

instance decidableMatches (s : Session K V) : (c : Command K V) → Decidable (s.Matches c)
  | .boot m n => inferInstanceAs (Decidable (∀ state ∈ s.engine.maps[m]?, ∀ x ∈ s.saved[n]?,
    x.entryOverhead = state.home.entryOverhead))
  | .request _ | .reopen _ => .isTrue trivial

/-- Every command of a list is as `P` says when it is carried out. -/
inductive All (P : Session K V → Command K V → Prop) : Session K V → List (Command K V) → Prop
  | nil (s : Session K V) : All P s []
  | cons {s : Session K V} {c : Command K V} {cs : List (Command K V)} (h : P s c)
      (hs : All P (s.step c).2 cs) : All P s (c :: cs)

instance decidableAll (P : Session K V → Command K V → Prop) [∀ s c, Decidable (P s c)]
    (s : Session K V) : (cs : List (Command K V)) → Decidable (s.All P cs)
  | [] => .isTrue (.nil s)
  | c :: cs =>
    have := decidableAll P (s.step c).2 cs
    decidable_of_iff (P s c ∧ (s.step c).2.All P cs)
      ⟨fun h => .cons h.1 h.2, fun h => by
        cases h with
        | cons hc hcs => exact ⟨hc, hcs⟩⟩

variable [Lossless K] [Lossless V] [Std.IsLinearOrder K]

variable {s : Session K V} {c : Command K V} {cs : List (Command K V)} {limit : Option Nat}

/-- The recorded sizes remain the weights of the entries. -/
theorem exact_step (h : s.Excess (· = 0)) (hs : s.Documented limit) (hc : s.Matches c)
    (hw : (s.step c).2.engine.Within limit) : (s.step c).2.Excess (· = 0) := by
  refine h.step hs rfl (fun c hc => hc.ge) ?_ hw
  rintro m n state x rfl hm hx b hb hexcess
  exact (Block.excess_revived (hb.trans (hc state hm x hx))).trans hexcess

theorem exact_run (h : s.Excess (· = 0)) (hs : s.Documented limit) (hcs : s.All Matches cs)
    (hw : (s.run cs).engine.Within limit) : (s.run cs).Excess (· = 0) := by
  induction hcs with
  | nil s => exact h
  | @cons s c cs hc hrest ih =>
    have hw' := hw.of_suffix (suffix_run _ cs)
    exact ih (exact_step h hs hc hw') (goes_step hs hw').documented hw

omit [Lossless K] [Lossless V] [Std.IsLinearOrder K] in
theorem exact_start (policies : List (Policy BlockRef)) (store : Store K V) (volume : Volume) :
    (start policies store volume).Excess (· = 0) :=
  ⟨fun m b hb => by simp [start, Engine.start, Engine.layout] at hb, by simp [start]⟩

end Session

end PagedMap
