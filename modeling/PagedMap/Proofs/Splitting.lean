import Mathlib
import PagedMap.Proofs.Halving
import PagedMap.Proofs.Outline
import PagedMap.Proofs.Partition
import PagedMap.Proofs.Weights

/-!
# Where blocks are split

A block that outgrows its budget when it takes an entry has another entry besides, since the entry
alone is within the budget.  So it is always split (`Layout.Put.split_of_over`).  The lower part
ends as soon as it weighs half of the block, or before the last entry (`Block.Halved`), and the
upper part is listed right behind it.

Main statement: `Session.split_run`.
-/

namespace PagedMap

variable {K V : Type}

/-! ### Where a list is cut -/

namespace Entries

variable {α : Type} {weight : α → Nat} {half passed total : Nat} {xs front back : List α}

/-- Before the last element passed, the weight was 0 or had not reached the half. -/
theorem cutAt_dropLast_lt (h : (cutAt weight half passed xs).1 ≠ []) :
    passed + ((cutAt weight half passed xs).1.dropLast.map weight).sum = 0 ∨
      passed + ((cutAt weight half passed xs).1.dropLast.map weight).sum < half := by
  induction xs generalizing passed with
  | nil => simp [cutAt] at h
  | cons x xs ih =>
    unfold cutAt at h ⊢
    split
    · rename_i hcut
      simp [hcut] at h
    · rename_i hgo
      have hrest : (cutAt weight half (passed + weight x) xs).1 ≠ [] → _ := ih
      dsimp only
      rcases hfront : (cutAt weight half (passed + weight x) xs).1 with _ | ⟨y, ys⟩
      · simp only [List.dropLast_singleton, List.map_nil, List.sum_nil]
        omega
      · rw [hfront] at hrest
        rw [List.dropLast_cons_cons, List.map_cons, List.sum_cons, ← Nat.add_assoc]
        exact hrest (List.cons_ne_nil _ _)

/-- Where a list is cut, the first part without its last element weighs 0 or less than the half, and
the first part weighs the half, or the second part is the last element. -/
theorem cut?_half (h : cut? weight half xs = some (front, back, total)) :
    ((front.dropLast.map weight).sum = 0 ∨ (front.dropLast.map weight).sum < half) ∧
      (half ≤ total ∨ back.length = 1) := by
  have happ := append_of_cut? h
  obtain ⟨hfront, hback⟩ := ne_nil_of_cut? h
  have hne : (cutAt weight half 0 xs).1 ≠ [] :=
    cutAt_ne_nil (happ ▸ List.append_ne_nil_of_left_ne_nil hfront _)
  have hlt := cutAt_dropLast_lt hne
  simp only [Nat.zero_add] at hlt
  unfold cut? at h
  split at h
  · rename_i whole sum hcut
    rw [hcut] at hlt
    dsimp only at hlt
    split at h
    · rename_i last hlast
      split at h
      · simp at h
      · simp only [Option.some.injEq, Prod.mk.injEq] at h
        obtain ⟨rfl, rfl, -⟩ := h
        have hle : (whole.dropLast.dropLast.map weight).sum ≤ (whole.dropLast.map weight).sum :=
          List.Sublist.sum_le_sum ((List.dropLast_sublist _).map _) (by simp)
        exact ⟨by omega, Or.inr rfl⟩
    · simp at h
  · simp only [Option.some.injEq] at h
    have hleft : (cutAt weight half 0 xs).2.1 ≠ [] := by rw [h]; exact hback
    have hhalf := le_cutAt hleft
    rw [h] at hlt hhalf
    exact ⟨hlt, Or.inl hhalf⟩

end Entries

/-! ### Halves of a block -/

namespace Block

/-- The lower bound is the key of the first entry, and the upper bound that of the last. -/
structure Tight (b : Block K V) : Prop where
  minKey : b.held.head?.map (·.1) = some b.minKey
  maxKey : b.held.getLast?.map (·.1) = some b.maxKey

/-- What the two parts of a block are.  Half of the weight is rounded down. -/
structure Halved [Sized K] [Sized V] (b lower upper : Block K V) : Prop where
  lower_ne_nil : lower.held ≠ []
  upper_ne_nil : upper.held ≠ []
  held : lower.held ++ upper.held = b.held
  lower_size : lower.size = (lower.held.map b.home.weight).sum
  upper_size : upper.size = (upper.held.map b.home.weight).sum
  lt_half : (lower.held.dropLast.map b.home.weight).sum < (b.held.map b.home.weight).sum / 2
  half_le : (b.held.map b.home.weight).sum / 2 ≤ (lower.held.map b.home.weight).sum ∨
    upper.held.length = 1
  lower_tight : lower.Tight
  upper_tight : upper.Tight

variable [Sized K] [Sized V] {b lower upper : Block K V} {id : Nat} {ref : BlockRef}

/-- The parts of a block whose size is the weight of its entries and is more than 1. -/
theorem halved_of_split? (hexact : b.excess = 0) (hsize : 1 < b.size)
    (h : b.split? id ref = some (lower, upper)) : b.Halved lower upper := by
  have happ := held_append_held h
  obtain ⟨hlower, hupper⟩ := excess_split hexact.ge h
  obtain ⟨front, back, total, hcut, a, c, d, f, ha, hc, hd, hf, rfl, rfl⟩ := split?_eq_some h
  obtain ⟨hfront, hback⟩ := Entries.ne_nil_of_cut? hcut
  obtain ⟨hlt, hhalf⟩ := Entries.cut?_half hcut
  have htotal := Entries.total_of_cut? hcut
  have hsum := size_eq_of_excess hexact
  refine ⟨hfront, hback, happ, size_eq_of_excess hlower, size_eq_of_excess (hupper.trans hexact),
    ?_, ?_, ⟨congrArg _ ha, congrArg _ hc⟩, ⟨congrArg _ hd, congrArg _ hf⟩⟩
  · rw [← hsum]
    show (front.dropLast.map b.home.weight).sum < b.size / 2
    omega
  · rw [← hsum]
    exact hhalf.imp_left fun hle => hle.trans htotal.le

end Block

/-! ### Budgets -/

theorem Reference.spacious_after [LE K] [DecidableLE K] [Sized K] [Sized V] {r : Reference K V}
    (h : ∀ s ∈ r, s.entryOverhead < s.budget) (q : Request K V) :
    ∀ s ∈ r.after q, s.entryOverhead < s.budget := by
  have hmap (s : OrderedMap K V) :
      (s.after q).entryOverhead = s.entryOverhead ∧ (s.after q).budget = s.budget := by
    unfold OrderedMap.after
    split
    · split <;> exact ⟨rfl, rfl⟩
    all_goals exact ⟨rfl, rfl⟩
  unfold after
  split
  · intro s hs
    obtain ⟨i, hi⟩ := List.mem_iff_getElem?.1 hs
    rw [List.getElem?_modify] at hi
    obtain ⟨s', hs', rfl⟩ := Option.map_eq_some_iff.1 hi
    have hroom := h s' (List.mem_of_getElem? hs')
    split
    · rw [(hmap s').1, (hmap s').2]
      exact hroom
    · exact hroom
  · split
    · split
      · rename_i budget hbudget
        obtain ⟨hroom, rfl⟩ := Sizing.budget_eq_ok_iff.1 hbudget
        rw [List.forall_mem_append, List.forall_mem_singleton]
        exact ⟨h, by dsimp only; omega⟩
      · exact h
    · exact h

namespace Session

section

variable [Wire K] [Wire V] [LE K] [DecidableLE K]

/-- The budget of every map is more than the overhead of an entry. -/
def Spacious (s : Session K V) : Prop :=
  ∀ home ∈ s.engine.maps.map (·.home), home.entryOverhead < home.budget

variable {s : Session K V} {c : Command K V} {cs : List (Command K V)} {limit : Option Nat}

theorem spacious_iff : s.Spacious ↔ ∀ o ∈ s.engine.mirror, o.entryOverhead < o.budget := by
  unfold Spacious Engine.mirror
  rw [List.forall_mem_map]
  constructor
  · intro h o ho
    obtain ⟨m, hm, rfl⟩ := List.mem_mapIdx.1 ho
    exact h _ (List.getElem_mem hm)
  · intro h state hstate
    obtain ⟨m, hm, rfl⟩ := List.mem_iff_getElem.1 hstate
    exact h _ (List.mem_mapIdx.2 ⟨m, hm, rfl⟩)

variable [Std.IsLinearOrder K] [Sized K] [Sized V] [Lossless K] [Lossless V]

theorem spacious_step (h : s.Spacious) (hs : s.Documented limit)
    (hw : (s.step c).2.engine.Within limit) : (s.step c).2.Spacious := by
  rcases s.step_cases c with ⟨q, rfl, hstep⟩ | ⟨m, n, state, x, hc, hm, hx, hstep⟩ |
    ⟨policies, e, he, hstep⟩ | hstep <;> rw [hstep] at hw ⊢
  · rw [spacious_iff] at h ⊢
    rcases (Engine.serve_spec hs.engine hw rfl).outcome with ⟨-, hmirror⟩ | ⟨-, hmirror⟩
    · exact hmirror.symm ▸ h
    · exact hmirror.symm ▸ Reference.spacious_after h q
  · obtain ⟨t, ht⟩ := hs.saved x (List.mem_of_getElem? hx)
    obtain ⟨lastId, htiled⟩ := ht.tiled
    obtain ⟨hchanges, -⟩ := Engine.restore_spec hs.engine hm ht.describes htiled
    unfold Spacious
    rw [hchanges.homes]
    exact h
  · obtain ⟨hmaps, -, -⟩ := Engine.reopened_spec hs.engine.roomy he
    simp [Spacious, hmaps]
  · exact h

/-- The overheads leave room for more in the blocks of every map. -/
theorem spacious_run (h : s.Spacious) (hs : s.Documented limit)
    (hw : (s.run cs).engine.Within limit) : (s.run cs).Spacious := by
  induction cs generalizing s with
  | nil => exact h
  | cons c cs ih =>
    have hw' := hw.of_suffix (suffix_run _ cs)
    exact ih (spacious_step h hs hw') (goes_step hs hw').documented hw

end

end Session

/-! ### Puts -/

/-- Of entries of which there is at most one, the one that was stored is left. -/
theorem Entries.insert_eq_singleton [LE K] [DecidableLE K] [Std.IsLinearOrder K]
    {key : K} {value : V} {es : Entries K V} (h : (insert key value es).length ≤ 1) :
    insert key value es = [(key, value)] := by
  cases es with
  | nil => rfl
  | cons a es =>
    unfold insert at h ⊢
    split <;> rename_i hle
    · split <;> rename_i hge
      · rw [if_pos hle, if_pos hge, List.length_cons] at h
        obtain rfl := List.length_eq_zero_iff.1 (Nat.le_zero.1 (Nat.le_of_succ_le_succ h))
        rw [Std.le_antisymm hle hge]
      · -- the entry would stand behind another one
        rw [if_pos hle, if_neg hge, List.length_cons] at h
        have hnil := List.length_eq_zero_iff.1 (Nat.le_zero.1 (Nat.le_of_succ_le_succ h))
        have hstored := value?_insert es key key value
        simp [hnil, value?, Std.le_refl] at hstored
    · rw [if_neg hle, List.length_cons, List.length_cons] at h
      omega

namespace Layout

variable [LE K] [DecidableLE K] [Std.IsLinearOrder K] [Sized K] [Sized V] {home : Home}
  {ref : BlockRef} {key : K} {value : V} {lastId lastId' : Nat} {pre post t' : Layout K V}
  {s : Stretch K V}

omit [Std.IsLinearOrder K] [Sized K] [Sized V] in
/-- The block that the directory names is the last one that does not start after the key. -/
theorem Tiled.reaches_of_floor? (h : Tiled lastId (pre ++ s :: post))
    (hfloor : (directory (pre ++ s :: post)).floor? key = some s.ref) :
    s.block.start.reaches key = true ∧ ∀ n ∈ post, n.block.start.reaches key = false := by
  obtain ⟨front, start, back, hdirectory, hreach, hback⟩ := Directory.floor?_eq_some hfloor
  obtain ⟨pre', s', post', ht, -, rfl, rfl, href⟩ := exists_of_directory_eq hdirectory
  have hdistinct {pre post : Layout K V} {s : Stretch K V} (h : Tiled lastId (pre ++ s :: post)) :
      ∀ n ∈ post, (n.ref == s.ref) = false := fun n hn => by
    have hp := (List.pairwise_cons.1 (List.pairwise_append.1 h.apart).2.1).1 n hn
    exact beq_false_of_ne hp.1.symm
  obtain ⟨rfl, rfl, rfl⟩ :=
    append_cons_unique (p := fun n => n.ref == s.ref) ht (beq_self_eq_true _)
    (beq_iff_eq.2 href) (hdistinct h) (href ▸ hdistinct (ht ▸ h))
  exact ⟨hreach, fun n hn => hback _ (List.mem_map_of_mem hn)⟩

/-- A block whose size is the weight of its entries is split if it outgrows its budget when it takes
an entry that is within the budget. -/
theorem Put.split_of_over
    (h : Put home ref key value lastId (pre ++ s :: post) t' lastId')
    (ht : Tiled lastId (pre ++ s :: post)) (hexact : s.block.excess = 0)
    (hs : s.block.start.reaches key = true) (hpost : ∀ n ∈ post, n.block.start.reaches key = false)
    (hfits : s.block.home.weight (key, value) ≤ s.block.home.budget)
    (hover : s.block.home.budget < (s.block.insert s.block.held key value).size) :
    ∃ lower upper, (s.block.insert s.block.held key value).split? (lastId + 1) ref =
      some (lower, upper) ∧ t' = pre ++ ⟨s.ref, lower⟩ :: ⟨ref, upper⟩ :: post := by
  rcases h.of_reaches hs hpost with ⟨hsplit, -⟩ | ⟨-, hsplit⟩
  · -- what cannot be split is the entry alone, which is within the budget
    have hlength := Block.length_le_of_split?_eq_none rfl (hsplit hover)
    have hgrown : (s.block.insert s.block.held key value).excess = 0 :=
      (Block.excess_insert (ht.blocks s (by simp)) hexact.ge).trans hexact
    have hsize := Block.size_eq_of_excess hgrown
    rw [Block.held_insert, Entries.insert_eq_singleton hlength] at hsize
    rw [hsize, List.map_singleton, List.sum_singleton] at hover
    exact absurd hfits (Nat.not_le.2 hover)
  · exact hsplit

end Layout

theorem Engine.run_put_of_serve [Wire K] [Wire V] [LE K] [DecidableLE K] [Sized K] [Sized V]
    {e e' : Engine K V} {m : Nat} {state : MapState K} {key : K} {value : V} {old : Option V}
    (hm : e.maps[m]? = some state) (h : e.serve (.put m key value) = (.value old, e')) :
    Act.run (put m key value) e = (.ok old, e') := by
  have hlt : m < e.maps.length := (List.getElem?_eq_some_iff.1 hm).1
  rcases hput : Act.run (put m key value) e with ⟨cause | r, e₁⟩ <;>
    simp [serve, Request.target?, hlt, perform, hput, Answer.of] at h
  obtain ⟨rfl, rfl⟩ := h
  rfl

namespace Session

variable [Wire K] [Wire V] [LE K] [DecidableLE K] [Std.IsLinearOrder K] [Sized K] [Sized V]
  [Lossless K] [Lossless V]

variable {limit : Option Nat} {m : Nat} {state : MapState K} {policies : List (Policy BlockRef)}
  {store : Store K V} {volume : Volume} {cs : List (Command K V)} {s : Session K V} {e : Engine K V}
  {key : K} {value : V} {old : Option V} {pre post : Layout K V} {b : Stretch K V}

/-- Let a put store an entry in a session in which maps are restored from snapshots of maps with
their overhead only, and let the block that the directory names outgrow its budget.  The block is
split into two parts, which have its entries in order, and the upper part is listed right behind the
lower one. -/
theorem split_run (hready : store.Ready limit volume)
    (hcs : (start policies store volume).All Matches cs)
    (hrun : (start policies store volume).run cs = s)
    (hserve : s.engine.serve (.put m key value) = (.value old, e)) (hw : e.Within limit)
    (hm : s.engine.maps[m]? = some state) (ht : s.engine.layout m = pre ++ b :: post)
    (hfloor : state.directory.floor? key = some b.ref)
    (hover : state.home.budget < (b.block.insert b.block.held key value).size) :
    ∃ lower upper : Block K V,
      e.layout m = pre ++ ⟨b.ref, lower⟩ :: ⟨s.engine.blocks.length, upper⟩ :: post ∧
      (b.block.insert b.block.held key value).Halved lower upper ∧
      (lower.held ++ upper.held).Sorted ∧
      lower.next = some s.engine.blocks.length ∧ upper.next = b.block.next ∧
      ∃ state', e.maps[m]? = some state' ∧ state'.directory.Ascending ∧
        state.directory = pre.directory ++ (b.block.start, b.ref) :: post.directory ∧
        state'.directory = pre.directory ++ (b.block.start, b.ref) ::
          (upper.start, s.engine.blocks.length) :: post.directory := by
  have hput : Act.run (Engine.put m key value) s.engine = (.ok old, e) :=
    Engine.run_put_of_serve hm hserve
  have hwithin : s.engine.Within limit := hw.of_suffix (Engine.suffix_serve hserve)
  obtain ⟨hs, hexact, hspacious⟩ : s.Documented limit ∧ s.Excess (· = 0) ∧ s.Spacious := by
    have hdocumented : (start policies store volume).Documented limit := documented_start hready
    subst hrun
    exact ⟨(goes_run hdocumented hwithin).documented,
      exact_run (exact_start policies store volume) hdocumented hcs hwithin,
      spacious_run (by simp [Spacious, start, Engine.start]) hdocumented hwithin⟩
  have hh := hs.engine.holds m state hm
  have hb : b ∈ s.engine.layout m := ht ▸ by simp
  have hhome := hh.homes b hb
  have hzero := hexact.layouts m b hb
  rw [ht] at hh
  obtain ⟨hreach, hpost⟩ := hh.tiled.reaches_of_floor? (hh.directory ▸ hfloor)
  -- the put has succeeded, so its entry was within the budget
  obtain ⟨hchanges, ⟨habsurd, -, -⟩ | ⟨hfits, ⟨habsurd, -⟩ | ⟨-, lastId, hmade⟩⟩⟩ :=
    Engine.put_spec hs.engine hw hm hput
  · simp at habsurd
  · simp at habsurd
  rw [ht] at hmade
  rw [← hhome] at hfits hover
  obtain ⟨lower, upper, hsplit, hlayout⟩ :=
    hmade.split_of_over hh.tiled hzero hreach hpost hfits hover
  -- the overheads leave a budget of at least 1, which the size exceeds
  have hsize : 1 < (b.block.insert b.block.held key value).size := by
    have hroom := hspacious state.home (List.mem_map_of_mem (List.mem_of_getElem? hm))
    rw [← hhome] at hroom
    omega
  have hhalved := Block.halved_of_split?
    ((Block.excess_insert (hh.tiled.blocks b (by simp)) hzero.ge).trans hzero) hsize hsplit
  obtain ⟨-, -, -, hstart, -⟩ := Block.split?_parts hsplit
  obtain ⟨hlower, hupper⟩ : lower.next = some s.engine.blocks.length ∧
      upper.next = b.block.next := by
    obtain ⟨_, _, _, -, _, _, _, _, -, -, -, -, rfl, rfl⟩ := Block.split?_eq_some hsplit
    exact ⟨rfl, rfl⟩
  have hsorted : (lower.held ++ upper.held).Sorted := by
    rw [hhalved.held, Block.held_insert]
    exact (hh.tiled.blocks b (by simp)).sorted.insert
  obtain ⟨state', hm'⟩ : ∃ state', e.maps[m]? = some state' := by
    have hhomes := congrArg (·[m]?) hchanges.homes
    simp only [List.getElem?_map, hm, Option.map_some, Option.map_eq_some_iff] at hhomes
    obtain ⟨state', hm', -⟩ := hhomes
    exact ⟨state', hm'⟩
  have hh' := hchanges.allHold.holds m state' hm'
  refine ⟨lower, upper, hlayout, hhalved, hsorted, hlower, hupper, state', hm',
    hh'.directory ▸ hh'.tiled.ascending, ?_, ?_⟩
  · rw [hh.directory, Layout.directory_append, Layout.directory_cons]
  · rw [hh'.directory, hlayout, Layout.directory_append, Layout.directory_cons,
      Layout.directory_cons, hstart]
    rfl

/-- A map of two blocks is cleared and restored.  Then the first block takes a fourth entry and is
split again. -/
theorem split_run_restored :
    let sizing : Sizing := { maxBlockSize := 12, entryOverhead := 2, blockOverhead := 0 }
    let cs : List (Command (Shape.uint .w8).Datum (Shape.uint .w8).Datum) :=
      [.request (.make sizing 0), .request (.put 0 5#8 1#8), .request (.put 0 3#8 2#8),
        .request (.put 0 9#8 3#8), .request (.put 0 7#8 4#8), .request (.put 0 1#8 5#8),
        .request (.checkpoint 0), .request (.clear 0), .boot 0 0]
    let s := (start [.clock (.empty 1)] .inMemory {}).run cs
    let e := (s.engine.serve (.put 0 2#8 6#8)).2
    (start [.clock (.empty 1)] .inMemory {}).All Matches cs ∧
      ∃ b n lower upper, s.engine.layout 0 = [b, n] ∧
      e.layout 0 = [⟨b.ref, lower⟩, ⟨s.engine.blocks.length, upper⟩, n] ∧
      (b.block.insert b.block.held 2#8 6#8).Halved lower upper ∧
      b.block.held.map (·.1.toNat) = [1, 3, 5] := by
  intro sizing cs s e
  have hcs : (start [.clock (.empty 1)] .inMemory {}).All Matches cs := by decide +kernel
  have hlength : (s.engine.layout 0).length = 2 := by decide +kernel
  have hanswer : (s.engine.serve (.put 0 2#8 6#8)).1 = .value none := by decide +kernel
  have hover : ∃ state ∈ s.engine.maps[0]?, ∃ b ∈ (s.engine.layout 0).head?,
      state.directory.floor? 2#8 = some b.ref ∧
      state.home.budget < (b.block.insert b.block.held 2#8 6#8).size ∧
      b.block.held.map (·.1.toNat) = [1, 3, 5] := by decide +kernel
  have hready : (Store.inMemory (K := (Shape.uint .w8).Datum) (V := (Shape.uint .w8).Datum)).Ready
      none {} := trivial
  have hserve : s.engine.serve (.put 0 2#8 6#8) = (.value none, e) := by rw [← hanswer]
  have hrun : (start [.clock (.empty 1)] .inMemory {}).run cs = s := rfl
  clear_value e s
  have hw : e.Within none := Engine.within_none _
  obtain ⟨b, n, ht⟩ := List.length_eq_two.1 hlength
  obtain ⟨state, hm, b', hb', hfloor, hover, hkeys⟩ := hover
  obtain rfl : b = b' := by simpa [ht] using hb'
  have hfirst : s.engine.layout 0 = [] ++ b :: [n] := ht
  obtain ⟨lower, upper, hlayout, hhalved, -⟩ :=
    split_run hready hcs hrun hserve hw hm hfirst hfloor hover
  exact ⟨hcs, b, n, lower, upper, ht, hlayout, hhalved, hkeys⟩

end Session

end PagedMap
