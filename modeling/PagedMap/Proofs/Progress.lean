import Mathlib
import PagedMap.Proofs.Order
import PagedMap.Proofs.Skeleton

/-!
# Puts come to an end

A put looks for the block of its key again as long as the successor of the block that it comes to
starts at the key or before it (`Engine.putWithin`).  Nothing changes in between, so that a put that
looks twice does so for ever (`Engine.run_putWithin_of_again`).

It looks once in any state with aligned directories (`Engine.Aligned`): a successor comes later in
the directory than its block, and the block that a directory names for a key is the last that may
take it.  Directories stay aligned whatever snapshots maps are restored from and whatever is on
pages, as long as each put goes to a block all of whose keys belong to it (`Engine.Suits`), since
the upper part of such a block comes between the block and its successor
(`Engine.Reached.put_ends`).

The metadata of a block may give a first key that is after the keys on its page.  The upper part of
such a block may come before it in the directory, and a put between the two goes on for ever
(`Engine.put_goes_on`).
-/

namespace PagedMap

variable {K V : Type}

/-! ### The order of starts -/

namespace Start

variable [LE K] [DecidableLE K]

/-- A block that starts at a key comes after the blocks that may take the key and have smaller
numbers. -/
theorem at_le_eq_false {s : Start K} {key : K} {id : Nat} (h : s.reaches key = true)
    (hid : s.id < id) : (Start.at key id).le s = false := by
  cases s with
  | head => rfl
  | «at» k i =>
    have hle : k ≤ key := by simpa [reaches, key?] using h
    have hlt : i < id := hid
    simp [le, hle, hlt]

theorem key?_any_eq_false {s : Start K} {key : K} (h : s.reaches key = false) :
    s.key?.any (· ≤ key) = false := by
  cases s with
  | head => rfl
  | «at» k i => simpa [reaches, key?] using h

/-- A block comes after those that start at keys before it. -/
theorem le_at_eq_false {s : Start K} {key : K} (hs : s ≠ .head) (h : s.key?.any (· ≤ key) = false)
    (id : Nat) : s.le (.at key id) = false := by
  cases s with
  | head => exact absurd rfl hs
  | «at» k i =>
    have hnot : ¬ k ≤ key := by simpa [key?] using h
    simp [le, hnot]

variable [Std.IsLinearOrder K]

theorem le_total (s t : Start K) : s.le t = true ∨ t.le s = true := by
  cases s with
  | head => exact Or.inl rfl
  | «at» k i =>
    cases t with
    | head => exact Or.inr rfl
    | «at» l j =>
      simp only [le, decide_eq_true_eq]
      have hkl := Std.le_total (a := k) (b := l)
      have hij := Nat.le_total i j
      tauto

theorem le_trans {s t u : Start K} (h : s.le t = true) (h' : t.le u = true) : s.le u = true := by
  cases s with
  | head => rfl
  | «at» k i =>
    cases t with
    | head => simp [le] at h
    | «at» l j =>
      cases u with
      | head => simp [le] at h'
      | «at» n p =>
        simp only [le, decide_eq_true_eq] at h h' ⊢
        obtain ⟨hkl, hij⟩ := h
        obtain ⟨hln, hjp⟩ := h'
        refine ⟨Std.le_trans hkl hln, fun hnk => ?_⟩
        exact Nat.le_trans (hij (Std.le_trans hln hnk)) (hjp (Std.le_trans hnk hkl))

theorem eq_of_le_of_le {s t : Start K} (h : s.le t = true) (h' : t.le s = true) : s = t := by
  have hid := id_eq_of_le_of_le h h'
  cases s with
  | head =>
    cases t with
    | head => rfl
    | «at» l j => simp [le] at h'
  | «at» k i =>
    cases t with
    | head => simp [le] at h
    | «at» l j =>
      simp only [le, decide_eq_true_eq] at h h'
      rw [Std.le_antisymm h.1 h'.1, show i = j from hid]

end Start

namespace Directory

variable [LE K] [DecidableLE K] [Std.IsLinearOrder K] {d : Directory K} {start : Start K}
  {ref : BlockRef} {x : Start K × BlockRef}

theorem eq_or_mem_of_mem_insert (h : x ∈ d.insert start ref) : x = (start, ref) ∨ x ∈ d := by
  induction d with
  | nil => exact Or.inl (List.mem_singleton.1 h)
  | cons y d ih =>
    unfold Directory.insert at h
    split at h
    · rename_i hle
      split at h
      · rename_i hle'
        obtain rfl := Start.eq_of_le_of_le hle hle'
        exact (List.mem_cons.1 h).imp_right (List.mem_cons_of_mem _)
      · rcases List.mem_cons.1 h with rfl | hx
        · exact Or.inr List.mem_cons_self
        · exact (ih hx).imp_right (List.mem_cons_of_mem _)
    · exact List.mem_cons.1 h

theorem Ascending.mem_back {front back : Directory K} {y : Start K × BlockRef}
    (h : Ascending (front ++ y :: back)) (hx : x ∈ front ++ y :: back) (hle : x.1.le y.1 = false) :
    x ∈ back := by
  obtain ⟨-, -, hfront⟩ := List.pairwise_append.1 h
  rcases List.mem_append.1 hx with hx | hx
  · simp [(hfront x hx y List.mem_cons_self).1] at hle
  · refine (List.mem_cons.1 hx).resolve_left fun heq => ?_
    have hrefl := or_self_iff.1 (Start.le_total y.1 y.1)
    simp [heq, hrefl] at hle

theorem Ascending.insert (h : d.Ascending) (start : Start K) (ref : BlockRef) :
    (d.insert start ref).Ascending := by
  induction d with
  | nil => exact List.pairwise_singleton ..
  | cons y d ih =>
    obtain ⟨hy, hd⟩ := List.pairwise_cons.1 h
    unfold Directory.insert
    split
    · rename_i hle
      split
      · exact List.pairwise_cons.2 ⟨hy, hd⟩
      · rename_i hnot
        refine List.pairwise_cons.2 ⟨fun x hx => ?_, ih hd⟩
        rcases eq_or_mem_of_mem_insert hx with rfl | hx
        · exact ⟨hle, by simpa using hnot⟩
        · exact hy x hx
    · rename_i hnot
      have hle : start.le y.1 = true := (Start.le_total start y.1).resolve_right hnot
      refine List.pairwise_cons.2 ⟨?_, h⟩
      rw [List.forall_mem_cons]
      refine ⟨⟨hle, by simpa using hnot⟩, fun x hx => ?_⟩
      obtain ⟨hyx, hxy⟩ := hy x hx
      refine ⟨Start.le_trans hle hyx, Bool.eq_false_iff.2 fun hback => ?_⟩
      exact absurd (Start.le_trans hyx hback) (by simpa using hnot)

end Directory

namespace Engine

/-! ### Attempts -/

section Attempts

variable [Wire K] [Wire V] [LE K] [DecidableLE K] [Sized K] [Sized V]

/-- A put that gives up after a number of attempts. -/
def putWithin (m : Nat) (key : K) (value : V) : (attempts : Nat) → Act K V (Option (Option V))
  | 0 => return none
  | attempts + 1 => do
    match ← putOnce m key value with
    | .done previous => return some previous
    | .again => putWithin m key value attempts

variable {e e' : Engine K V} {m : Nat} {key : K} {value : V} {ref : BlockRef} {b : Block K V}

/-- A put that has to look again has changed nothing, and the key is past the block that the
directory names. -/
theorem putOnce_again (h : Act.run (putOnce m key value) e = (.ok .again, e')) : e' = e ∧
    ∃ state ref, e.maps[m]? = some state ∧ state.directory.floor? key = some ref ∧
      ∀ b, e.blocks[ref]? = some b → e.isPast b key = true := by
  rcases putOnce_cases m key value e with ⟨r, hrun, hagain, -⟩ | ⟨state, -, -, hrun⟩ |
    ⟨state, ref, hm, hfloor, hrun⟩ <;> rw [hrun] at h
  · exact absurd (congrArg Prod.fst h) hagain
  · simp at h
  · rcases putInto_cases m ref key value e with ⟨hpast, hrun⟩ | ⟨b, hb, hpast⟩
    · rw [hrun] at h
      obtain ⟨-, rfl⟩ := Prod.mk.inj h
      exact ⟨rfl, state, ref, hm, hfloor, hpast⟩
    · rw [run_putInto hb hpast] at h
      split at h <;> simp at h

/-- A put that has to look again never comes to an end. -/
theorem run_putWithin_of_again (h : (Act.run (putOnce m key value) e).1 = .ok .again)
    (attempts : Nat) : Act.run (putWithin m key value attempts) e = (.ok none, e) := by
  have hrun : Act.run (putOnce m key value) e = (.ok .again, e) :=
    Prod.ext h (putOnce_again (Prod.ext h rfl)).1
  -- an attempt that has to look again changes nothing, so the next one is the same
  induction attempts with
  | zero => rfl
  | succ attempts ih =>
    rw [putWithin, Act.run_bind, hrun]
    exact ih

/-- A put that does not have to look again comes to its end at once. -/
theorem run_putWithin_succ (h : (Act.run (putOnce m key value) e).1 ≠ .ok .again) (attempts : Nat) :
    Act.run (putWithin m key value (attempts + 1)) e =
      ((Act.run (put m key value) e).1.map some, (Act.run (put m key value) e).2) := by
  simp only [putWithin, put, Act.run_bind]
  rcases hrun : Act.run (putOnce m key value) e with ⟨cause | previous | _, e₁⟩
  · rfl
  · rfl
  · simp [hrun] at h

/-- An attempt fails if the entry is too large or a page cannot be read, and for no other reason. -/
theorem putOnce_ne_stalled (m : Nat) (key : K) (value : V) (e : Engine K V) :
    (Act.run (putOnce m key value) e).1 ≠ .error .stalled := by
  rcases putOnce_cases m key value e with ⟨r, hrun, -, hstalled⟩ | ⟨state, -, -, hrun⟩ |
    ⟨state, ref, -, -, hrun⟩ <;> rw [hrun]
  · exact hstalled
  · simp
  · rcases putInto_cases m ref key value e with ⟨-, hrun⟩ | ⟨b, hb, hpast⟩
    · simp [hrun]
    · rw [run_putInto hb hpast]
      rcases haccess : Act.run (access ref b) e with ⟨cause | es, e₁⟩
      · obtain ⟨-, c, rfl, -⟩ := access_error haccess
        simp
      · simp

theorem run_put_eq_stalled : (Act.run (put m key value) e).1 = .error .stalled ↔
    (Act.run (putOnce m key value) e).1 = .ok .again := by
  have hne := putOnce_ne_stalled m key value e
  simp only [put, Act.run_bind]
  rcases hrun : Act.run (putOnce m key value) e with ⟨cause | previous | _, e₁⟩ <;> rw [hrun] at hne
  · simpa using hne
  · simp
  · simp

/-- `put` fails as stalled exactly if the put would never come to an end. -/
theorem put_stalled_iff : (Act.run (put m key value) e).1 = .error .stalled ↔
    ∀ attempts, Act.run (putWithin m key value attempts) e = (.ok none, e) := by
  rw [run_put_eq_stalled]
  refine ⟨run_putWithin_of_again, fun h => ?_⟩
  by_contra hends
  have hrun := congrArg Prod.fst ((run_putWithin_succ hends 0).symm.trans (h 1))
  cases hput : (Act.run (put m key value) e).1 <;> simp [hput, Except.map] at hrun

end Attempts

/-! ### Aligned directories -/

section Order

variable [LE K] [DecidableLE K]

/-- Directories are in ascending order, blocks start where directories say, and a successor starts
after its block. -/
structure Aligned (e : Engine K V) : Prop where
  ascending : ∀ (m : Nat) (state : MapState K), e.maps[m]? = some state → state.directory.Ascending
  starts : ∀ (m : Nat) (state : MapState K), e.maps[m]? = some state → ∀ x ∈ state.directory,
    ∃ next, e.skeleton[x.2]? = some (x.1, next)
  nexts : ∀ (ref next : BlockRef) (start : Start K), e.skeleton[ref]? = some (start, some next) →
    ∃ start' next', e.skeleton[next]? = some (start', next') ∧ start'.le start = false

variable {e e' : Engine K V} {m : Nat} {state : MapState K} {key : K} {ref : BlockRef}
  {b b' : Block K V} {lastId : Nat}

theorem Aligned.rigid (h : e.Aligned) (hr : Rigid e e') : e'.Aligned where
  ascending := hr.maps ▸ h.ascending
  starts := hr.maps ▸ hr.skeleton ▸ h.starts
  nexts := hr.skeleton ▸ h.nexts

/-- A map may have no blocks instead of those that it had. -/
theorem Aligned.of_maps (h : e.Aligned) (hskeleton : e'.skeleton = e.skeleton)
    (hmaps : ∀ (i : Nat) (state : MapState K), e'.maps[i]? = some state →
      state.directory = [] ∨ e.maps[i]? = some state) : e'.Aligned where
  ascending i state hi := by
    rcases hmaps i state hi with hnil | hi
    · exact hnil ▸ List.Pairwise.nil
    · exact h.ascending i state hi
  starts i state hi x hx := by
    rcases hmaps i state hi with hnil | hi
    · simp [hnil] at hx
    · exact hskeleton ▸ h.starts i state hi x hx
  nexts := hskeleton ▸ h.nexts

theorem isPast_of_skeleton {next : BlockRef} {start : Start K} {next' : Option BlockRef}
    (hnext : b.next = some next) (h : e.skeleton[next]? = some (start, next')) (key : K) :
    e.isPast b key = start.key?.any (· ≤ key) := by
  rw [getElem?_skeleton] at h
  obtain ⟨c, hc, heq⟩ := Option.map_eq_some_iff.1 h
  obtain ⟨rfl, -⟩ := Prod.mk.inj heq
  simp [isPast, hnext, hc]

/-- The block that a directory names takes the key. -/
theorem Aligned.floor [Std.IsLinearOrder K] (h : e.Aligned) (ht : e.Tidy)
    (hm : e.maps[m]? = some state) (hfloor : state.directory.floor? key = some ref)
    (hb : e.blocks[ref]? = some b) :
    (b.start, ref) ∈ state.directory ∧ b.start.reaches key = true ∧ e.isPast b key = false := by
  obtain ⟨front, start, back, hdirectory, hreach, hback⟩ := Directory.floor?_eq_some hfloor
  have hmem : (start, ref) ∈ state.directory := by simp [hdirectory]
  obtain ⟨next, hskeleton⟩ := h.starts m state hm _ hmem
  have hget := getElem?_skeleton e ref
  rw [hb, hskeleton] at hget
  obtain ⟨rfl, rfl⟩ := Prod.mk.inj (Option.some.inj hget)
  refine ⟨hmem, hreach, ?_⟩
  cases hnext : b.next with
  | none => simp [isPast, hnext]
  | some next =>
    obtain ⟨start, next', hstart, hle⟩ := h.nexts ref next b.start (hskeleton.trans (by rw [hnext]))
    -- the successor is listed, and since it does not come before the block it comes after it
    obtain ⟨-, state', hm', href, -⟩ :=
      ht.exists_next ⟨state, hm, List.mem_map_of_mem hmem, hb⟩ hnext
    obtain rfl : state = state' := Option.some.inj (hm.symm.trans hm')
    obtain ⟨x, hx, rfl⟩ := List.mem_map.1 href
    obtain ⟨next'', hx'⟩ := h.starts m state hm x hx
    obtain ⟨rfl, -⟩ := Prod.mk.inj (Option.some.inj (hx'.symm.trans hstart))
    have hascending := h.ascending m state hm
    rw [hdirectory] at hx hascending
    rw [isPast_of_skeleton hnext hstart]
    exact Start.key?_any_eq_false (hback x (hascending.mem_back hx hle))

section Edit

variable [Std.IsLinearOrder K]

omit [Std.IsLinearOrder K] in
theorem skeleton_enlist (m : Nat) (state : MapState K) (b : Block K V) (lastId : Nat)
    (e : Engine K V) :
    (e.enlist m state b lastId).skeleton = e.skeleton ++ [(b.start, b.next)] := by
  simp [skeleton, enlist, setMap, addBlock]

/-- A block may be listed if it comes before its successor. -/
theorem Aligned.enlist (h : e.Aligned) (hm : e.maps[m]? = some state)
    (hnext : ∀ next ∈ b.next, ∃ start next', e.skeleton[next]? = some (start, next') ∧
      start.le b.start = false) (lastId : Nat) : (e.enlist m state b lastId).Aligned := by
  have hmap := maps_enlist hm b lastId
  have hothers (i : Nat) (hi : i ≠ m) : (e.enlist m state b lastId).maps[i]? = e.maps[i]? :=
    maps_enlist_of_ne hi
  have hlength : e.skeleton.length = e.blocks.length := List.length_map _
  have hold {r : BlockRef} {x : Start K × Option BlockRef} (hx : e.skeleton[r]? = some x) :
      (e.enlist m state b lastId).skeleton[r]? = some x := by
    rw [skeleton_enlist, List.getElem?_append_left (List.getElem?_eq_some_iff.1 hx).1, hx]
  refine ⟨fun i st hi => ?_, fun i st hi x hx => ?_, fun r next start hr => ?_⟩
  · by_cases hne : i = m
    · subst hne
      obtain rfl := Option.some.inj (hmap.symm.trans hi)
      exact (h.ascending i state hm).insert _ _
    · exact h.ascending i st (hothers i hne ▸ hi)
  · by_cases hne : i = m
    · subst hne
      obtain rfl := Option.some.inj (hmap.symm.trans hi)
      rcases Directory.eq_or_mem_of_mem_insert hx with rfl | hx
      · refine ⟨b.next, ?_⟩
        rw [skeleton_enlist, ← hlength, List.getElem?_append_right (Nat.le_refl _), Nat.sub_self]
        rfl
      · obtain ⟨next, hx'⟩ := h.starts i state hm x hx
        exact ⟨next, hold hx'⟩
    · obtain ⟨next, hx'⟩ := h.starts i st (hothers i hne ▸ hi) x hx
      exact ⟨next, hold hx'⟩
  · rw [skeleton_enlist, getElem?_append_singleton] at hr
    split at hr
    · obtain ⟨rfl, hnext'⟩ := Prod.mk.inj (Option.some.inj hr)
      obtain ⟨start', next', hstart, hle⟩ := hnext next hnext'
      exact ⟨start', next', hold hstart, hle⟩
    · obtain ⟨start', next', hstart, hle⟩ := h.nexts r next start hr
      exact ⟨start', next', hold hstart, hle⟩

omit [Std.IsLinearOrder K] in
/-- A block may get a successor that comes after it. -/
theorem Aligned.setBlock (h : e.Aligned) (hb : e.blocks[ref]? = some b)
    (hstart : b'.start = b.start)
    (hnext : ∀ next ∈ b'.next, ∃ start next', e.skeleton[next]? = some (start, next') ∧
      start.le b.start = false) : (e.setBlock ref b').Aligned := by
  obtain ⟨hlt, -⟩ := List.getElem?_eq_some_iff.1 hb
  have hskeleton : (e.setBlock ref b').skeleton = e.skeleton.set ref (b.start, b'.next) := by
    rw [skeleton_setBlock, hstart]
  have hget := getElem?_skeleton e ref
  rw [hb, Option.map_some] at hget
  have hstays {r : BlockRef} {x : Start K × Option BlockRef} (hx : e.skeleton[r]? = some x) :
      ∃ next, (e.setBlock ref b').skeleton[r]? = some (x.1, next) := by
    rw [hskeleton, List.getElem?_set]
    split
    · rename_i hr
      subst hr
      obtain rfl := Option.some.inj (hget.symm.trans hx)
      exact ⟨_, by rw [if_pos (List.getElem?_eq_some_iff.1 hx).1]⟩
    · exact ⟨_, hx⟩
  refine ⟨h.ascending, fun i st hi x hx => ?_, fun r next start hr => ?_⟩
  · obtain ⟨next, hx'⟩ := h.starts i st hi x hx
    exact hstays hx'
  · have hsucceeds : ∃ start' next', e.skeleton[next]? = some (start', next') ∧
        start'.le start = false := by
      rw [hskeleton, List.getElem?_set] at hr
      split at hr
      · rw [if_pos (by simpa [skeleton] using hlt)] at hr
        obtain ⟨rfl, hnext'⟩ := Prod.mk.inj (Option.some.inj hr)
        exact hnext next hnext'
      · exact h.nexts r next start hr
    obtain ⟨start', next', hstart', hle⟩ := hsucceeds
    obtain ⟨next'', hnext''⟩ := hstays hstart'
    exact ⟨start', next'', hnext'', hle⟩

end Edit

end Order

/-! ### Puts into fenced blocks -/

section Put

variable [Wire K] [Wire V] [LE K] [DecidableLE K]

/-- The keys of a block belong to it: none is before its start, and none belongs to its
successor. -/
def Fenced (e : Engine K V) (b : Block K V) : Prop :=
  ∀ p ∈ e.content b, b.start.reaches p.1 = true ∧ e.isPast b p.1 = false

instance (e : Engine K V) (b : Block K V) : Decidable (e.Fenced b) :=
  inferInstanceAs (Decidable (∀ p ∈ e.content b, _))

/-- The block to which a put of the key goes. -/
def floorBlock? (e : Engine K V) (m : Nat) (key : K) : Option (Block K V) :=
  (e.maps[m]?).bind fun state => (state.directory.floor? key).bind fun ref => e.blocks[ref]?

variable {e e' : Engine K V} {m : Nat} {state : MapState K} {key : K} {value : V} {ref : BlockRef}
  {b b' : Block K V}

omit [Wire K] [Wire V] in
theorem isPast_congr (h : e'.skeleton = e.skeleton) (hnext : b'.next = b.next) (key : K) :
    e'.isPast b' key = e.isPast b key := by
  cases hb : b.next with
  | none => simp [isPast, hnext, hb]
  | some next =>
    cases hn : e.skeleton[next]? with
    | none =>
      have hn' := h ▸ hn
      rw [getElem?_skeleton, Option.map_eq_none_iff] at hn hn'
      simp [isPast, hnext, hb, hn, hn']
    | some x =>
      rw [isPast_of_skeleton hb hn, isPast_of_skeleton (hnext.trans hb) (h ▸ hn)]

variable [Std.IsLinearOrder K] [Sized K] [Sized V]

omit [Wire K] [Wire V] in
/-- The upper part of a block whose keys belong to it comes between the block and its successor. -/
theorem Aligned.split (h : e.Aligned) (ht : e.Tidy) (hm : e.maps[m]? = some state)
    (hmem : (b.start, ref) ∈ state.directory) (hb : e.blocks[ref]? = some b)
    (hkeys : ∀ p ∈ b.held, b.start.reaches p.1 = true ∧ e.isPast b p.1 = false) :
    (split m ref b e).2.Aligned := by
  obtain ⟨hlt, -⟩ := List.getElem?_eq_some_iff.1 hb
  cases hsplit : b.split? (state.lastId + 1) e.blocks.length with
  | none => simpa [Engine.split, hm, hsplit] using h
  | some parts =>
    obtain ⟨lower, upper⟩ := parts
    rw [split_eq hm hlt hsplit]
    obtain ⟨front, back, total, hcut, a, c, d, f, -, -, hd, -, rfl, rfl⟩ :=
      Block.split?_eq_some hsplit
    have hdb : d ∈ b.held := by
      rw [← Entries.append_of_cut? hcut]
      exact List.mem_append_right _ (List.mem_of_head? hd)
    obtain ⟨hreach, hpast⟩ := hkeys d hdb
    have hskeleton : e.skeleton[ref]? = some (b.start, b.next) := by
      rw [getElem?_skeleton, hb]
      rfl
    have hid := (ht m state hm).ids _ hmem
    set lower : Block K V := { b with
      minKey := a.1, maxKey := c.1, entries := some front, size := total,
        next := some e.blocks.length }
    set upper : Block K V := { b with
      start := .at d.1 (state.lastId + 1), id := state.lastId + 1, minKey := d.1, maxKey := f.1,
      entries := some back, size := b.size - total, dirty := true, page := noPage, tracked := true }
    -- the upper part comes before the successor, since no key of the block is past the block
    have hlisted : (e.enlist m state upper (state.lastId + 1)).Aligned := by
      refine h.enlist hm (fun next hnext => ?_) _
      have hnext' : b.next = some next := hnext
      obtain ⟨start, next', hstart, hle⟩ :=
        h.nexts ref next b.start (hskeleton.trans (by rw [hnext']))
      refine ⟨start, next', hstart, Start.le_at_eq_false (fun hhead => ?_) ?_ _⟩
      · simp [hhead, Start.le] at hle
      · rwa [← isPast_of_skeleton hnext' hstart]
    -- it comes behind the lower part, since its first key belongs to the block
    have hlinked : ((e.enlist m state upper (state.lastId + 1)).setBlock ref lower).Aligned := by
      refine hlisted.setBlock (b := b) ?_ rfl fun next hnext => ?_
      · exact (List.getElem?_append_left hlt).trans hb
      · obtain rfl := Option.some.inj hnext
        refine ⟨upper.start, upper.next, ?_, Start.at_le_eq_false hreach (Nat.lt_succ_of_le hid)⟩
        rw [skeleton_enlist, getElem?_append_singleton, if_pos (by simp [skeleton])]
    exact hlinked.rigid ⟨rfl, rfl⟩

omit [LE K] [DecidableLE K] [Sized K] [Sized V] [Std.IsLinearOrder K] in
theorem paging_report (ref : BlockRef) (b : Block K V) (product : Option (BlockRef × Block K V))
    (e : Engine K V) : Paging e (report ref b product e) := by
  unfold report
  split
  · exact (paging_touch _ _ _).trans (paging_addPage _ _ _)
  · exact paging_touch _ _ _

/-- A put into a fenced block keeps the directories in order. -/
theorem Aligned.putInto (h : e.Aligned) (ht : e.Tidy) (hm : e.maps[m]? = some state)
    (hfloor : state.directory.floor? key = some ref) (hl : e.Lists m ref b) (hfenced : e.Fenced b)
    (value : V) : (Act.run (putInto m ref key value) e).2.Aligned := by
  have hb := hl.blocks_eq
  obtain ⟨hmem, hreach, hpast⟩ := h.floor ht hm hfloor hb
  rw [run_putInto hb hpast]
  rcases haccess : Act.run (access ref b) e with ⟨cause | es, e₁⟩
  · exact h.rigid (paging_access hb haccess).rigid
  have hpaging := paging_access hb haccess
  have hloaded := lists_loaded hl haccess
  set grown := (b.loaded es).insert es key value with hgrown
  have hrigid : Rigid e (e₁.setBlock ref grown) :=
    hpaging.rigid.trans (rigid_setBlock hloaded.blocks_eq rfl rfl)
  suffices hsettle : (settle m ref grown e₁).2.Aligned
    from hsettle.rigid (paging_report _ _ _ _).rigid
  unfold settle
  split
  · obtain ⟨hretains, hlists⟩ := retains_setBlock (hpaging.tidy ht) hloaded
      ((edits_loaded ht hl haccess).insert es key value)
    refine (h.rigid hrigid).split hretains.tidy (hrigid.maps ▸ hm) hmem
      hlists.blocks_eq fun p hp => ?_
    -- the keys of the block are those that it had, and the one that is put
    rw [isPast_congr hrigid.skeleton rfl]
    have hp' : p ∈ Entries.insert key value es := hp
    rcases Entries.mem_insert hp' with rfl | hp
    · exact ⟨hreach, hpast⟩
    · exact hfenced p (access_eq_ok haccess ▸ hp)
  · exact h.rigid hrigid

theorem Aligned.put (h : e.Aligned) (ht : e.Tidy) (hfenced : ∀ b ∈ e.floorBlock? m key, e.Fenced b)
    (value : V) : (Act.run (put m key value) e).2.Aligned := by
  rw [snd_run_put]
  rcases putOnce_cases m key value e with ⟨r, hrun, -⟩ | ⟨state, hm, -, hrun⟩ |
    ⟨state, ref, hm, hfloor, hrun⟩ <;> rw [hrun]
  · exact h
  · have hplanted := h.enlist hm
      (b := .ofEntry state.home key value (state.home.weight (key, value)))
      (fun next hnext => by simp [Block.ofEntry] at hnext) state.lastId
    exact hplanted.rigid (paging_addPage _ _ _).rigid
  · obtain ⟨b, hl⟩ := ht.exists_lists hm (Directory.floor?_mem_refs hfloor)
    refine h.putInto ht hm hfloor hl (hfenced b ?_) value
    simp [floorBlock?, hm, hfloor, hl.blocks_eq]

end Put

/-! ### Runs -/

section Calls

variable [Wire K] [Wire V] [LE K] [DecidableLE K] [Sized K] [Sized V]

/-- Any call but a put into a block that is not fenced. -/
def Suits (e : Engine K V) : Call K V → Prop
  | .request (.put m key _) => ∀ b ∈ e.floorBlock? m key, e.Fenced b
  | _ => True

/-- The engines that there can be if every call is as `P` says when it is made.  Page stores may
have any pages at first, and others may write to them between the calls. -/
inductive Reached (P : Engine K V → Call K V → Prop) : Engine K V → Prop
  | start (policies : List (Policy BlockRef)) (store : Store K V) (stores : List (Store K V))
      (volume : Volume) : Reached P { policies, stores := store :: stores, volume }
  | call {e : Engine K V} {c : Call K V} (h : Reached P e) (hc : P e c) : Reached P (e.call c)
  | outside {e : Engine K V} {stores : List (Store K V)} (h : Reached P e)
      (hstores : stores.length = e.stores.length) (volume : Volume) :
      Reached P { e with stores, volume }

variable [Std.IsLinearOrder K] {e e' : Engine K V} {m : Nat} {state : MapState K}
  {key : K} {value : V} {c : Call K V} {q : Request K V}

omit [Sized K] [Sized V] in
/-- Where the blocks of a map partition its keys, as they do if it is only ever restored from
snapshots of its own, every block is fenced. -/
theorem AllHold.suits {limit : Option Nat} (hs : e.AllHold limit) (m : Nat) (key : K) (value : V) :
    e.Suits (.request (.put m key value)) := by
  intro b hb
  obtain ⟨state, hm, hb⟩ := Option.bind_eq_some_iff.1 hb
  obtain ⟨ref, hfloor, hb⟩ := Option.bind_eq_some_iff.1 hb
  have hh := hs.holds m state hm
  obtain ⟨front, start, back, hdirectory, -, -⟩ := Directory.floor?_eq_some hfloor
  obtain ⟨pre, s, post, ht, -, -, rfl, rfl⟩ :=
    Layout.exists_of_directory_eq (hh.directory ▸ hdirectory)
  rw [ht] at hh
  obtain ⟨b', hb', -, hsb⟩ := hh.shows s (by simp)
  obtain rfl := Option.some.inj (hb.symm.trans hb')
  have hinBounds := hh.tiled.blocks s (by simp)
  intro p hp
  obtain ⟨hmin, hmax⟩ := hinBounds.within p (by rw [hsb]; exact hp)
  constructor
  · have hstart : b.start = s.block.start := by rw [hsb]; rfl
    rw [hstart, Block.reaches_iff]
    exact fun k hk => Std.le_trans (Block.reaches_iff.1 hinBounds.reaches k hk) hmin
  · refine isPast_eq_false hh (fun n hn => ?_) hsb
    obtain ⟨-, hapart, -⟩ := List.pairwise_append.1 hh.tiled.apart
    obtain ⟨-, -, k, hk, hlt⟩ := (List.pairwise_cons.1 hapart).1 n hn
    rw [Bool.eq_false_iff, Ne, Block.reaches_iff]
    exact fun hreaches => hlt (Std.le_trans (hreaches k hk) hmax)

omit [Wire K] [Wire V] [Sized K] [Sized V] [Std.IsLinearOrder K] in
theorem Aligned.give_up (h : e.Aligned) (hm : e.maps[m]? = some state)
    (he : e' = e.clear m ∨ e' = e.drop m) : e'.Aligned := by
  refine h.of_maps (skeleton_give_up he) fun i st hi => ?_
  rw [maps_give_up hm he, List.getElem?_set] at hi
  split at hi
  · split at hi
    · exact Or.inl (Option.some.inj hi ▸ rfl)
    · simp at hi
  · exact Or.inr hi

omit [Wire K] [Wire V] [Sized K] [Sized V] [Std.IsLinearOrder K] in
theorem Aligned.addMap {sizing : Sizing} {policy store : Nat} (h : e.Aligned) :
    ((e.addMap sizing policy store).toOption.getD e).Aligned := by
  unfold Engine.addMap
  rcases sizing.budget with cause | budget
  · exact h
  · refine h.of_maps rfl fun i st hi => ?_
    have hi' : (e.maps ++ [_])[i]? = some st := hi
    rw [getElem?_append_singleton] at hi'
    split at hi'
    · exact Or.inl (Option.some.inj hi' ▸ rfl)
    · exact Or.inr hi'

omit [Wire K] [Wire V] [Sized K] [Sized V] in
theorem Aligned.restoreBlock (h : e.Aligned) (m : Nat) (info : BlockInfo K) :
    (restoreBlock m e info).Aligned := by
  cases hm : e.maps[m]? with
  | none => rwa [Engine.restoreBlock, hm]
  | some state =>
    have hnoted : (e.notify (.blockRestored info.id)).Aligned := h.rigid ⟨rfl, rfl⟩
    rw [restoreBlock_eq hm]
    exact hnoted.enlist hm (fun next hnext => by simp [Block.ofInfo] at hnext) _

omit [Wire K] [Wire V] [Sized K] [Sized V] in
/-- Directories are in order after a restore, whatever the snapshot describes. -/
theorem Aligned.restore (h : e.Aligned) (hm : e.maps[m]? = some state) (snapshot : Snapshot K) :
    (e.restore m snapshot).Aligned := by
  have hnoted : (e.notify (.mapRestored snapshot.blocks.length)).Aligned := h.rigid ⟨rfl, rfl⟩
  have hcleared : ((e.notify (.mapRestored snapshot.blocks.length)).clear m).Aligned :=
    hnoted.give_up hm (Or.inl rfl)
  unfold Engine.restore
  generalize (e.notify (.mapRestored snapshot.blocks.length)).clear m = e₁ at hcleared
  induction snapshot.blocks generalizing e₁ with
  | nil => exact hcleared
  | cons info infos ih => exact ih _ (hcleared.restoreBlock m info)

/-- A request keeps the directories in order, unless it is a put into a block that is not fenced. -/
theorem Aligned.perform (h : e.Aligned) (ht : e.Tidy) (hq : e.Suits (.request q))
    (htarget : q.target?.all (· < e.maps.length) = true) : (e.perform q).2.Aligned := by
  have hmap {m : Nat} (hq : q.target? = some m) : ∃ state, e.maps[m]? = some state :=
    ⟨_, List.getElem?_eq_getElem (by simpa [hq] using htarget)⟩
  cases q with
  | make sizing policy =>
    have hadd : ((e.addMap sizing policy 0).toOption.getD e).Aligned := h.addMap
    simp only [Engine.perform]
    rcases hmake : e.addMap sizing policy 0 with cause | e₁ <;> rw [hmake] at hadd <;> exact hadd
  | put m key value => exact h.put ht hq value
  | clear m =>
    obtain ⟨state, hm⟩ := hmap rfl
    exact h.give_up hm (Or.inl rfl)
  | drop m =>
    obtain ⟨state, hm⟩ := hmap rfl
    exact h.give_up hm (Or.inr rfl)
  | _ => exact h.rigid (rigid_perform rfl Scope.noConfusion e)

theorem Aligned.call (h : e.Aligned) (ht : e.Tidy) (hc : e.Suits c) : (e.call c).Aligned := by
  cases c with
  | request q =>
    simp only [Engine.call, Engine.serve]
    split
    · rename_i htarget
      exact h.perform ht hc htarget
    · exact h
  | make sizing policy store =>
    simp only [Engine.call]
    split
    · exact h.addMap
    · exact h
  | boot m snapshot =>
    simp only [Engine.call]
    split
    · rename_i hm
      exact h.restore (List.getElem?_eq_getElem hm) snapshot
    · exact h
  | plan store faults => exact h.rigid ⟨rfl, rfl⟩

/-- As long as puts go to fenced blocks, directories are in order and the maps agree with them. -/
theorem Reached.aligned (h : Reached Suits e) : e.Aligned ∧ e.Tidy ∧ 0 < e.stores.length := by
  induction h with
  | start policies store stores volume =>
    refine ⟨⟨?_, ?_, ?_⟩, ?_, Nat.succ_pos _⟩ <;> simp [Tidy, skeleton]
  | call h hc ih =>
    obtain ⟨haligned, ht, hstores⟩ := ih
    obtain ⟨ht', hstores', -⟩ := (effect_call ht hstores _).tidy ht hstores
    exact ⟨haligned.call ht hc, ht', hstores'⟩
  | @outside e stores h hlength volume ih =>
    obtain ⟨haligned, ht, hstores⟩ := ih
    have hpaging : Paging e { e with stores, volume } := .of_blocks rfl hlength rfl
    exact ⟨haligned.rigid ⟨rfl, rfl⟩, hpaging.tidy ht, hlength ▸ hstores⟩

/-- Every put is over after finitely many attempts, with what `put` gives, whatever maps were
restored from, whatever is on pages, and whichever calls of page stores fail, as long as each put
before it went to a block all of whose keys belong to it. -/
theorem Reached.put_ends (h : Reached Suits e) (m : Nat) (key : K) (value : V) :
    ∃ attempts, ∀ n ≥ attempts, Act.run (putWithin m key value n) e =
      ((Act.run (put m key value) e).1.map some, (Act.run (put m key value) e).2) := by
  obtain ⟨haligned, ht, -⟩ := h.aligned
  refine ⟨1, fun n hn => ?_⟩
  obtain ⟨n, rfl⟩ := Nat.exists_eq_add_of_le' hn
  refine run_putWithin_succ (fun hagain => ?_) n
  -- to look again, the key would have to be past the block that the directory names
  obtain ⟨-, state, ref, hm, hfloor, hpast⟩ := putOnce_again (Prod.ext hagain rfl)
  obtain ⟨b, hl⟩ := ht.exists_lists hm (Directory.floor?_mem_refs hfloor)
  obtain ⟨-, -, hnot⟩ := haligned.floor ht hm hfloor hl.blocks_eq
  simp [hpast b hl.blocks_eq] at hnot

end Calls

/-- A page is written, and a map is restored from metadata that give the keys on it rightly.  A put
splits the block, and the next one goes to its lower part. -/
theorem put_ends_restored :
    let page : List ((Shape.uint .w64).Datum × Shape.string.Datum) :=
      [(1#64, "a"), (2#64, "b"), (3#64, "c"), (4#64, "d")]
    let make : Call (Shape.uint .w64).Datum Shape.string.Datum :=
      .request (.make { maxBlockSize := 40, entryOverhead := 1, blockOverhead := 0 } 0)
    let boot : Call (Shape.uint .w64).Datum Shape.string.Datum := .boot 0 ⟨[⟨1#64, 4#64, 1, 40, 1⟩]⟩
    let put : Call (Shape.uint .w64).Datum Shape.string.Datum := .request (.put 0 15#64 "e")
    let e : Engine (Shape.uint .w64).Datum Shape.string.Datum :=
      { policies := [.clock (.empty 8)], stores := [.inMemory] }
    let e₁ := { e.call make with stores := [{ backing := .memory [page] }] }
    let e₂ := (e₁.call boot).call put
    let key : (Shape.uint .w64).Datum := 3#64
    let value : Shape.string.Datum := "f"
    Reached Suits e₂ ∧ e₂.maps.map (·.directory.length) = [2] ∧
      ∃ attempts, ∀ n ≥ attempts, Act.run (putWithin 0 key value n) e₂ =
        ((Act.run (Engine.put 0 key value) e₂).1.map some,
          (Act.run (Engine.put 0 key value) e₂).2) := by
  intro page make boot put e e₁ e₂ key value
  have hsuits : (e₁.call boot).Suits put := by
    unfold put Suits
    decide +kernel
  have hstart : Reached Suits (e.call make) := .call (.start _ _ _ _) trivial
  have hwritten : Reached Suits e₁ := .outside hstart (by decide +kernel) (e.call make).volume
  have hreached : Reached Suits e₂ := .call (.call hwritten trivial) hsuits
  exact ⟨hreached, by decide +kernel, hreached.put_ends 0 key value⟩

/-- The metadata give 10 as the first key of a block whose page has the keys from 1 to 4.  A put of
15 splits the block, and a put of 12 goes to the lower part, whose successor starts at 4: it looks
for its block again for ever. -/
theorem put_goes_on :
    let page : List ((Shape.uint .w64).Datum × Shape.string.Datum) :=
      [(1#64, "a"), (2#64, "b"), (3#64, "c"), (4#64, "d")]
    let make : Call (Shape.uint .w64).Datum Shape.string.Datum :=
      .request (.make { maxBlockSize := 40, entryOverhead := 1, blockOverhead := 0 } 0)
    let boot : Call (Shape.uint .w64).Datum Shape.string.Datum :=
      .boot 0 ⟨[⟨10#64, 20#64, 1, 40, 1⟩]⟩
    let put : Call (Shape.uint .w64).Datum Shape.string.Datum := .request (.put 0 15#64 "e")
    let e : Engine (Shape.uint .w64).Datum Shape.string.Datum :=
      { policies := [.clock (.empty 8)], stores := [.inMemory] }
    let e₁ := { e.call make with stores := [{ backing := .memory [page] }] }
    let e₂ := (e₁.call boot).call put
    let key : (Shape.uint .w64).Datum := 12#64
    let value : Shape.string.Datum := "f"
    Reached (fun _ _ => True) e₂ ∧
      ∀ attempts, Act.run (putWithin 0 key value attempts) e₂ = (.ok none, e₂) := by
  intro page make boot put e e₁ e₂ key value
  have hstart : Reached (fun _ _ => True) (e.call make) := .call (.start _ _ _ _) trivial
  have hwritten : Reached (fun _ _ => True) e₁ :=
    .outside hstart (by decide +kernel) (e.call make).volume
  exact ⟨.call (.call hwritten trivial) trivial, put_stalled_iff.1 (by decide +kernel)⟩

end Engine

end PagedMap
