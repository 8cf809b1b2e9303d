import Mathlib
import PagedMap.Proofs.Partition
import PagedMap.Proofs.Progress
import PagedMap.Proofs.Splitting

/-!
# Chains of blocks

A split gives the new block a number, lists it in the directory and links it, in two places that
have to agree.  They do (`Engine.Chained`): the blocks of a map have different numbers, 0 is the
number of the block that starts before every key, and the successor of a block, if it has one, is
the block listed next.  So successors only lead on in the directory and never back to a block
(`Engine.Chained.following`, `Engine.Chained.acyclic`).

As commands follow, numbers that were given are not given again, and successors go on to lead from a
block wherever they led (`Engine.Continues`), since a block that is split off comes between a block
and its successor.  Giving up blocks does not change where their successors lead, and blocks that
are listed from a snapshot are new.  So a block that was split off another can be reached from it
ever after (`Session.chained_run`).
-/

namespace PagedMap

variable {K V : Type}

/-! ### Links at one moment -/

namespace Engine

/-- The second block is the successor of the first. -/
def Links (e : Engine K V) (ref next : BlockRef) : Prop :=
  ∃ b, e.blocks[ref]? = some b ∧ b.next = some next

section Order

variable [LE K] [DecidableLE K]

/-- The blocks of a map are listed by their starts.  They have different numbers, and 0 is that of
the block that starts before every key.  A successor is the block that is listed next. -/
structure Chained (e : Engine K V) (state : MapState K) : Prop where
  ascending : state.directory.Ascending
  blocks : ∀ x ∈ state.directory, ∃ b, e.blocks[x.2]? = some b ∧ b.start = x.1 ∧
    (b.id = 0 ↔ b.start = .head) ∧ b.id ≤ state.lastId
  apart : state.directory.Pairwise fun x y => ∀ b c, e.blocks[x.2]? = some b →
    e.blocks[y.2]? = some c → b.id ≠ c.id
  next : ∀ front x back, state.directory = front ++ x :: back → ∀ next, e.Links x.2 next →
    ∃ y, back.head? = some y ∧ y.2 = next

variable {e e' e'' : Engine K V} {m : Nat} {state state' : MapState K} {ref : BlockRef}
  {b : Block K V} {x : Start K × BlockRef} {key : K} {value : V} {origin : BlockRef}

section Linear

variable [Std.IsLinearOrder K]

theorem Chained.following (h : e.Chained state) (hx : x ∈ state.directory)
    (hlinks : Relation.TransGen e.Links x.2 ref) :
    ∃ y ∈ state.directory, y.2 = ref ∧ x.1.le y.1 = true ∧ y.1.le x.1 = false := by
  have hnext {x : Start K × BlockRef} {next : BlockRef} (hx : x ∈ state.directory)
      (hlink : e.Links x.2 next) :
      ∃ y ∈ state.directory, y.2 = next ∧ x.1.le y.1 = true ∧ y.1.le x.1 = false := by
    obtain ⟨front, back, hdirectory⟩ := List.append_of_mem hx
    obtain ⟨y, hy, rfl⟩ := h.next front x back hdirectory next hlink
    have hback : y ∈ back := List.mem_of_head? hy
    have hascending := h.ascending
    rw [hdirectory] at hascending
    obtain ⟨-, hrest, -⟩ := List.pairwise_append.1 hascending
    exact ⟨y, by simp [hdirectory, hback], rfl, (List.pairwise_cons.1 hrest).1 y hback⟩
  induction hlinks with
  | single hlink => exact hnext hx hlink
  | tail _ hlink ih =>
    obtain ⟨y, hy, rfl, hxy, -⟩ := ih
    obtain ⟨z, hz, rfl, hyz, hnot⟩ := hnext hy hlink
    refine ⟨z, hz, rfl, Start.le_trans hxy hyz, Bool.eq_false_iff.2 fun hzx => ?_⟩
    exact absurd (Start.le_trans hzx hxy) (by simpa using hnot)

/-- No chain of successors comes back to where it started. -/
theorem Chained.acyclic (h : e.Chained state) (href : ref ∈ state.directory.refs) :
    ¬ Relation.TransGen e.Links ref ref := by
  intro hlinks
  obtain ⟨x, hx, rfl⟩ := List.mem_map.1 href
  obtain ⟨y, hy, hsame, hle, hnot⟩ := h.following hx hlinks
  obtain ⟨b, hb, hstart, -⟩ := h.blocks x hx
  obtain ⟨c, hc, hstart', -⟩ := h.blocks y hy
  obtain rfl : b = c := Option.some.inj (hb.symm.trans (hsame ▸ hc))
  rw [← hstart, ← hstart'] at hle hnot
  simp [hle] at hnot

variable [Wire K] [Wire V]

theorem Holds.chained {t : Layout K V} (h : e.Holds m state t) : e.Chained state := by
  have hblock {s : Stretch K V} (hs : s ∈ t) {b : Block K V} (hb : e.blocks[s.ref]? = some b) :
      b.start = s.block.start ∧ b.id = s.block.id ∧ b.next = s.block.next := by
    obtain ⟨b', hb', -, hsame⟩ := h.shows s hs
    obtain rfl := Option.some.inj (hb.symm.trans hb')
    rw [hsame]
    exact ⟨rfl, rfl, rfl⟩
  have hascending := h.tiled.ascending
  rw [← h.directory] at hascending
  refine ⟨hascending, fun x hx => ?_, ?_, fun front x back hdirectory next hlink => ?_⟩
  · rw [h.directory] at hx
    obtain ⟨s, hs, rfl⟩ := List.mem_map.1 hx
    obtain ⟨b, hb, -⟩ := h.shows s hs
    obtain ⟨hstart, hid, -⟩ := hblock hs hb
    refine ⟨b, hb, hstart, ?_, hid ▸ h.tiled.ids s hs⟩
    rw [hstart, hid]
    rcases (h.tiled.blocks s hs).start_eq with ⟨hhead, hzero⟩ | ⟨k, hat, hne⟩
    · simp [hhead, hzero]
    · simp [hat, hne]
  · rw [h.directory]
    refine List.pairwise_map.2 (h.tiled.apart.imp_of_mem fun {s n} hs hn hp b c hb hc => ?_)
    rw [(hblock hs hb).2.1, (hblock hn hc).2.1]
    exact hp.2.1
  · obtain ⟨pre, s, post, rfl, -, rfl, -, hsref⟩ :=
      Layout.exists_of_directory_eq (h.directory.symm.trans hdirectory)
    obtain ⟨b, hb, hnext⟩ := hlink
    obtain ⟨-, -, hsame⟩ := hblock (by simp) (hsref ▸ hb)
    obtain ⟨n, hn, hnref⟩ := h.tiled.linked.right.1 next (hsame ▸ hnext)
    exact ⟨(n.block.start, n.ref), by simp [Layout.directory, List.head?_map, Option.mem_def.1 hn],
      hnref⟩

end Linear

/-- The successor of the block that the directory names for a key does not take the key. -/
theorem Chained.isPast_eq_false (h : e.Chained state)
    (hfloor : state.directory.floor? key = some origin)
    (hb : e.blocks[origin]? = some b) : e.isPast b key = false := by
  obtain ⟨front, start, back, hdirectory, -, hback⟩ := Directory.floor?_eq_some hfloor
  cases hnext : b.next with
  | none => simp [isPast, hnext]
  | some next =>
    obtain ⟨y, hy, rfl⟩ := h.next front _ back hdirectory next ⟨b, hb, hnext⟩
    have hmem : y ∈ back := List.mem_of_head? hy
    obtain ⟨c, hc, hstart, -⟩ := h.blocks y (by simp [hdirectory, hmem])
    have hpast : e.isPast b key = c.start.key?.any (· ≤ key) := by simp [isPast, hnext, hc]
    rw [hpast, hstart]
    exact Start.key?_any_eq_false (hback y hmem)

variable [Wire K] [Wire V] [Sized K] [Sized V]

/-- The block that the directory names for a key takes the key. -/
theorem Chained.putInto_ne_again (h : e.Chained state)
    (hfloor : state.directory.floor? key = some origin) (m : Nat) (value : V) :
    (Act.run (putInto m origin key value) e).1 ≠ .ok .again := by
  rcases putInto_cases m origin key value e with ⟨hall, -⟩ | ⟨b, hb, hpast⟩
  · obtain ⟨x, hx, rfl⟩ := List.mem_map.1 (Directory.floor?_mem_refs hfloor)
    obtain ⟨b, hb, -⟩ := h.blocks x hx
    simpa [h.isPast_eq_false hfloor hb] using hall b hb
  · rw [run_putInto hb hpast]
    rcases Act.run (access origin b) e with ⟨cause | es, e₁⟩ <;> simp

end Order

/-! ### Links over time -/

/-- No map gives numbers again that it gave, and successors lead wherever they led. -/
structure Continues (e e' : Engine K V) : Prop where
  lastId : ∀ (m : Nat) (state : MapState K), e.maps[m]? = some state →
    ∃ state', e'.maps[m]? = some state' ∧ state.lastId ≤ state'.lastId
  links : ∀ a c, e.Links a c → Relation.TransGen e'.Links a c

variable {e e' e'' : Engine K V} {m : Nat} {state state' : MapState K} {ref : BlockRef}
  {b : Block K V} {key : K} {value : V} {a c : BlockRef}

theorem Continues.refl (e : Engine K V) : Continues e e :=
  ⟨fun _ state hm => ⟨state, hm, Nat.le_refl _⟩, fun _ _ h => .single h⟩

theorem Continues.transGen (h : Continues e e') (hlinks : Relation.TransGen e.Links a c) :
    Relation.TransGen e'.Links a c := Relation.TransGen.closed h.links a c hlinks

theorem Continues.trans (h : Continues e e') (h' : Continues e' e'') : Continues e e'' where
  lastId m state hm := by
    obtain ⟨state', hm', hle⟩ := h.lastId m state hm
    obtain ⟨state'', hm'', hle'⟩ := h'.lastId m state' hm'
    exact ⟨state'', hm'', hle.trans hle'⟩
  links a c hlink := h'.transGen (h.links a c hlink)

/-- The map may get a higher number, and the other maps stay. -/
theorem lastId_of_set (hm : e.maps[m]? = some state) (hle : state.lastId ≤ state'.lastId)
    (hmaps : e'.maps = e.maps.set m state') (i : Nat) (st : MapState K)
    (hi : e.maps[i]? = some st) : ∃ st', e'.maps[i]? = some st' ∧ st.lastId ≤ st'.lastId := by
  rw [hmaps]
  by_cases him : m = i
  · subst him
    obtain rfl := Option.some.inj (hm.symm.trans hi)
    exact ⟨state', List.getElem?_set_self (List.getElem?_eq_some_iff.1 hm).1, hle⟩
  · exact ⟨st, (List.getElem?_set_ne him).trans hi, Nat.le_refl _⟩

/-- Blocks may be added to those that there are. -/
theorem Continues.of_skeleton (hskeleton : e.skeleton <+: e'.skeleton)
    (hlastId : ∀ (m : Nat) (state : MapState K), e.maps[m]? = some state →
      ∃ state', e'.maps[m]? = some state' ∧ state.lastId ≤ state'.lastId) : Continues e e' := by
  refine ⟨hlastId, fun a c hlink => .single ?_⟩
  obtain ⟨b, hb, hnext⟩ := hlink
  have hget : e.skeleton[a]? = some (b.start, some c) := by
    rw [getElem?_skeleton, hb, Option.map_some, hnext]
  obtain ⟨added, hadded⟩ := hskeleton
  rw [← List.getElem?_append_left (List.getElem?_eq_some_iff.1 hget).1, hadded,
    getElem?_skeleton] at hget
  obtain ⟨b', hb', hsame⟩ := Option.map_eq_some_iff.1 hget
  exact ⟨b', hb', (Prod.mk.inj hsame).2⟩

theorem Rigid.continues (h : Rigid e e') : Continues e e' :=
  .of_skeleton (h.skeleton ▸ List.prefix_refl _) fun _ state hm =>
    ⟨state, h.maps.symm ▸ hm, Nat.le_refl _⟩

theorem continues_give_up (hm : e.maps[m]? = some state) (he : e' = e.clear m ∨ e' = e.drop m) :
    Continues e e' := by
  refine .of_skeleton (skeleton_give_up he ▸ List.prefix_refl _)
    (lastId_of_set hm ?_ (maps_give_up hm he))
  exact Nat.le_refl state.lastId

theorem continues_addMap {sizing : Sizing} {policy store : Nat}
    (h : e.addMap sizing policy store = .ok e') : Continues e e' := by
  obtain ⟨budget, -, rfl⟩ := addMap_eq_ok h
  refine .of_skeleton (List.prefix_refl _) fun i st hi => ⟨st, ?_, Nat.le_refl _⟩
  exact (List.getElem?_append_left (List.getElem?_eq_some_iff.1 hi).1).trans hi

section Commands

variable [LE K] [DecidableLE K]

theorem continues_enlist {lastId : Nat} (hm : e.maps[m]? = some state) (hle : state.lastId ≤ lastId)
    (b : Block K V) : Continues e (e.enlist m state b lastId) :=
  .of_skeleton (skeleton_enlist m state b lastId e ▸ List.prefix_append _ _)
    (lastId_of_set hm hle rfl)

theorem continues_restoreBlock (m : Nat) (info : BlockInfo K) (e : Engine K V) :
    Continues e (restoreBlock m e info) := by
  cases hm : e.maps[m]? with
  | none =>
    rw [restoreBlock, hm]
    exact .refl e
  | some state =>
    have hnoted : Rigid e (e.notify (.blockRestored info.id)) := ⟨rfl, rfl⟩
    have hle : state.lastId ≤ max state.lastId info.id := Nat.le_max_left _ _
    have hm' : (e.notify (.blockRestored info.id)).maps[m]? = some state := hm
    rw [restoreBlock_eq hm]
    exact hnoted.continues.trans (continues_enlist hm' hle (.ofInfo state.home info))

/-- The blocks that a snapshot describes are new, and those that are given up stay where they
are. -/
theorem continues_restore (hm : e.maps[m]? = some state) (snapshot : Snapshot K) :
    Continues e (e.restore m snapshot) := by
  have hnoted : Rigid e (e.notify (.mapRestored snapshot.blocks.length)) := ⟨rfl, rfl⟩
  have hcleared : Continues e ((e.notify (.mapRestored snapshot.blocks.length)).clear m) :=
    hnoted.continues.trans (continues_give_up hm (Or.inl rfl))
  unfold restore
  generalize (e.notify (.mapRestored snapshot.blocks.length)).clear m = e₁ at hcleared
  induction snapshot.blocks generalizing e₁ with
  | nil => exact hcleared
  | cons info infos ih => exact ih _ (hcleared.trans (continues_restoreBlock m info e₁))

variable [Sized K] [Sized V]

/-- The upper part of a split comes between the lower part and its successor. -/
theorem continues_split (hb : e.blocks[ref]? = some b) (m : Nat) :
    Continues e (split m ref b e).2 := by
  cases hm : e.maps[m]? with
  | none => simpa [split, hm] using Continues.refl e
  | some state =>
    cases hsplit : b.split? (state.lastId + 1) e.blocks.length with
    | none => simpa [split, hm, hsplit] using Continues.refl e
    | some parts =>
      obtain ⟨lower, upper⟩ := parts
      obtain ⟨hlt, -⟩ := List.getElem?_eq_some_iff.1 hb
      obtain ⟨hlower, hupper, -⟩ := Block.links_of_split? hsplit
      rw [split_eq hm hlt hsplit]
      set e' := ((e.enlist m state upper (state.lastId + 1)).setBlock ref lower).notify
        (.blockSplit b.id upper.id lower.size upper.size)
      have hget (r : BlockRef) (hr : r ≠ ref) : e'.blocks[r]? = (e.blocks ++ [upper])[r]? :=
        List.getElem?_set_ne hr.symm
      refine ⟨lastId_of_set hm (Nat.le_succ _) rfl, ?_⟩
      rintro a c ⟨x, hx, hxc⟩
      by_cases hne : a = ref
      · subst hne
        obtain rfl := Option.some.inj (hb.symm.trans hx)
        -- the successor of the block is reached by way of the upper part
        have hup : e'.Links a e.blocks.length :=
          ⟨lower, List.getElem?_set_self (List.length_append ▸ Nat.lt_add_right 1 hlt), hlower⟩
        have hon : e'.Links e.blocks.length c :=
          ⟨upper, (hget _ hlt.ne').trans List.getElem?_concat_length, hupper.trans hxc⟩
        exact .tail (.single hup) hon
      · have hold : (e.blocks ++ [upper])[a]? = e.blocks[a]? :=
          List.getElem?_append_left (List.getElem?_eq_some_iff.1 hx).1
        exact .single ⟨x, (hget a hne).trans (hold.trans hx), hxc⟩

theorem Alters.continues (h : Alters e e') : Continues e e' := by
  cases h with
  | @erase ref b es hb hes key =>
    obtain ⟨hstart, hnext⟩ := start_erase b es key
    exact (rigid_setBlock hb hstart hnext).continues
  | @insert ref b es hb hes key value =>
    have hrigid : Rigid e (e.setBlock ref (b.insert es key value)) := rigid_setBlock hb rfl rfl
    exact hrigid.continues
  | split hl hdirty => exact continues_split hl.blocks_eq _
  | plant hm key value => exact continues_enlist hm (Nat.le_refl _) _

variable [Wire K] [Wire V]

theorem Passes.continues {k : Scope} (h : Passes k e e') : Continues e e' := by
  induction h with
  | refl => exact .refl e
  | tail _ hpass ih =>
    refine ih.trans ?_
    rcases hpass.paging_or_alters with hpaging | ⟨-, halters⟩
    · exact (hpaging.rigid Scope.noConfusion).continues
    · exact halters.continues

theorem continues_serve (e : Engine K V) (q : Request K V) : Continues e (e.serve q).2 := by
  by_cases hq : q.staysIn = true
  · exact (passes_serve hq e).continues
  unfold serve
  split
  · rename_i htarget
    have hmap {m : Nat} (hm : q.target? = some m) : ∃ state, e.maps[m]? = some state :=
      ⟨_, List.getElem?_eq_getElem (by simpa [hm] using htarget)⟩
    cases q with
    | make sizing policy =>
      simp only [perform]
      split
      · rename_i e₁ hadd
        exact continues_addMap hadd
      · exact .refl e
    | clear m =>
      obtain ⟨state, hm⟩ := hmap rfl
      exact continues_give_up hm (Or.inl rfl)
    | drop m =>
      obtain ⟨state, hm⟩ := hmap rfl
      exact continues_give_up hm (Or.inr rfl)
    | _ => exact absurd rfl hq
  · exact .refl e

end Commands

end Engine

/-! ### Splits -/

/-- If a put lists one more block though a block may take the key, that is the upper part of this
one. -/
theorem Layout.Put.upper_of_new [LE K] [DecidableLE K] [Sized K] [Sized V] {home : Home}
    {ref r origin : BlockRef} {key : K} {value : V} {lastId lastId' : Nat} {t t' : Layout K V}
    (h : Put home ref key value lastId t t' lastId') (hfloor : t.directory.floor? key = some origin)
    (hnew : r ∈ t'.directory.refs) (hold : r ∉ t.directory.refs) :
    ∃ lower ∈ t', ∃ upper ∈ t', lower.ref = origin ∧ lower.block.next = some r ∧ upper.ref = r ∧
      upper.block.id = lastId + 1 := by
  cases h with
  | plant hkey =>
    obtain ⟨front, start, back, hdirectory, hreach, -⟩ := Directory.floor?_eq_some hfloor
    obtain ⟨pre, s, post, rfl, -, -, rfl, -⟩ := exists_of_directory_eq hdirectory
    simp [hkey s (by simp)] at hreach
  | @grow pre post s b hs hpost hb hfits =>
    have hsame : (directory (pre ++ ⟨s.ref, b⟩ :: post)).refs =
        (directory (pre ++ s :: post)).refs := by
      rw [refs_directory, refs_directory, List.map_append, List.map_append]
      rfl
    exact absurd (hsame ▸ hnew) hold
  | @split pre post s b lower upper hs hpost hb hover hsplit =>
    obtain rfl : s.ref = origin := Option.some.inj ((floor?_directory hs hpost).symm.trans hfloor)
    obtain rfl : r = ref := by
      simp only [refs_directory, List.map_append, List.map_cons, List.mem_append,
        List.mem_cons] at hnew hold
      tauto
    obtain ⟨hnext, -, hid⟩ := Block.links_of_split? hsplit
    exact ⟨⟨s.ref, lower⟩, by simp, ⟨r, upper⟩, by simp, rfl, hnext, rfl, hid⟩

namespace Session

variable [Wire K] [Wire V] [LE K] [DecidableLE K] [Sized K] [Sized V]

/-- A put splits the block `ref` off the block `origin`: this is the one that the directory names
for the key, and the put lists the other one, which was not listed before. -/
structure SplitsOff (s : Session K V) (m : Nat) (key : K) (value : V) (origin ref : BlockRef) :
    Prop where
  floor : ∃ state, s.engine.maps[m]? = some state ∧ state.directory.floor? key = some origin
  fresh : ref ∉ s.engine.listed m
  listed : ref ∈ (s.step (.request (.put m key value))).2.engine.listed m

variable {s : Session K V} {c : Command K V} {cs later : List (Command K V)}
  {limit : Option Nat} {m : Nat} {state : MapState K} {key : K} {value : V} {origin ref : BlockRef}

theorem continues_step (hc : ∀ policies, c ≠ .reopen policies) (s : Session K V) :
    s.engine.Continues (s.step c).2.engine := by
  cases c with
  | request q => exact Engine.continues_serve s.engine q
  | boot m n =>
    simp only [step]
    split
    · rename_i hm _
      exact Engine.continues_restore hm _
    · exact .refl _
  | reopen policies => exact absurd rfl (hc policies)

/-- Numbers and links go on as long as the maps are not left behind. -/
theorem continues_run (hcs : ∀ policies, Command.reopen policies ∉ cs) (s : Session K V) :
    s.engine.Continues (s.run cs).engine := by
  induction cs generalizing s with
  | nil => exact .refl _
  | cons c cs ih =>
    refine (continues_step (fun policies heq => hcs policies (by simp [heq])) s).trans (ih ?_ _)
    exact fun policies hmem => hcs policies (List.mem_cons_of_mem _ hmem)

variable [Std.IsLinearOrder K] [Lossless K] [Lossless V]

/-- A block that is split off has the next number, and is the successor of the other. -/
theorem SplitsOff.links (h : s.SplitsOff m key value origin ref) (hs : s.Documented limit)
    (hm : s.engine.maps[m]? = some state)
    (hw : (s.step (.request (.put m key value))).2.engine.Within limit) :
    (s.step (.request (.put m key value))).2.engine.Links origin ref ∧
      ∃ b, (s.step (.request (.put m key value))).2.engine.blocks[ref]? = some b ∧
        b.id = state.lastId + 1 := by
  obtain ⟨⟨state₀, hm₀, hfloor⟩, hfresh, hlisted⟩ := h
  obtain rfl : state = state₀ := Option.some.inj (hm.symm.trans hm₀)
  have hlt : m < s.engine.maps.length := (List.getElem?_eq_some_iff.1 hm).1
  have hserve : (s.step (.request (.put m key value))).2.engine =
      (Act.run (Engine.put m key value) s.engine).2 := by
    simp [step, Engine.serve, Request.target?, hlt, Engine.perform]
  rw [hserve] at hlisted hw ⊢
  obtain ⟨hchanges, hcases⟩ := Engine.put_spec hs.engine hw hm
    (Prod.mk.eta (p := Act.run (Engine.put m key value) s.engine)).symm
  generalize (Act.run (Engine.put m key value) s.engine).2 = e' at hlisted hchanges hcases ⊢
  have hold : ref ∉ (s.engine.layout m).directory.refs := by
    have hh := hs.engine.holds m state hm
    rw [← hh.directory]
    intro href
    obtain ⟨-, -, -, b, hb, -⟩ := hh.exists_of_mem href
    exact hfresh ⟨b, state, hm, href, hb⟩
  have hnew : ref ∈ (e'.layout m).directory.refs := by
    obtain ⟨b, state', hm', href, -⟩ := hlisted
    exact (hchanges.allHold.holds m state' hm').directory ▸ href
  rcases hcases with ⟨-, -, rfl⟩ | ⟨-, ⟨-, hsame, -⟩ | ⟨-, lastId, hput⟩⟩
  · exact absurd hlisted hfresh
  · exact absurd (hsame ▸ hnew) hold
  · rw [(hs.engine.holds m state hm).directory] at hfloor
    obtain ⟨lower, hlower, upper, hupper, rfl, hnext, rfl, hid⟩ :=
      hput.upper_of_new hfloor hnew hold
    obtain ⟨b, hb, -, hsame⟩ := hchanges.allHold.shows_of_mem hlower
    obtain ⟨c, hc, -, hsame'⟩ := hchanges.allHold.shows_of_mem hupper
    rw [hsame] at hnext
    rw [hsame'] at hid
    exact ⟨⟨b, hb, hnext⟩, c, hc, hid⟩

variable {policies : List (Policy BlockRef)} {store : Store K V} {volume : Volume}

/-- After any commands the blocks of a map are chained.  Their successors lead on in the directory
and never back, and the block that the directory names for a key takes the key.  A block that was
split off another since the maps were left behind for the last time can be reached from it, and one
that is split off later, before they are left behind, gets a number greater than those of all
blocks. -/
theorem chained_run (hready : store.Ready limit volume)
    (hrun : (start policies store volume).run cs = s) (hw : s.engine.Within limit)
    (hm : s.engine.maps[m]? = some state) :
    s.engine.Chained state ∧
    (∀ x ∈ state.directory, ∀ ref, Relation.TransGen s.engine.Links x.2 ref →
      ∃ y ∈ state.directory, y.2 = ref ∧ x.1.le y.1 = true ∧ y.1.le x.1 = false) ∧
    (∀ ref ∈ state.directory.refs, ¬ Relation.TransGen s.engine.Links ref ref) ∧
    (∀ key value origin, state.directory.floor? key = some origin →
      (Act.run (Engine.putInto m origin key value) s.engine).1 ≠ .ok .again) ∧
    (∀ before key value after origin ref, cs = before ++ .request (.put m key value) :: after →
      (∀ policies, Command.reopen policies ∉ after) →
      ((start policies store volume).run before).SplitsOff m key value origin ref →
      Relation.TransGen s.engine.Links origin ref) ∧
    ∀ later key value origin ref, (∀ policies, Command.reopen policies ∉ later) →
      (s.run later).SplitsOff m key value origin ref →
      ((s.run later).step (.request (.put m key value))).2.engine.Within limit →
      ∃ c, ((s.run later).step (.request (.put m key value))).2.engine.blocks[ref]? = some c ∧
        ∀ x ∈ state.directory, ∀ b, s.engine.blocks[x.2]? = some b → b.id < c.id := by
  have hstart : (start policies store volume).Documented limit := documented_start hready
  have hs : s.Documented limit := hrun ▸ (goes_run hstart (hrun.symm ▸ hw)).documented
  have hchained := (hs.engine.holds m state hm).chained
  refine ⟨hchained, fun x hx ref => hchained.following hx, fun ref => hchained.acyclic,
    fun key value origin hfloor => hchained.putInto_ne_again hfloor m value,
    fun before key value after origin ref hcs hafter hsplits => ?_,
    fun later key value origin ref hlater hsplits hw' => ?_⟩
  · -- the link made by the put is never lost afterwards
    have hsplit : s = (((start policies store volume).run before).step
        (.request (.put m key value))).2.run after := by
      rw [← hrun, hcs, run, List.foldl_append]
      rfl
    subst hsplit
    have hput := hw.of_suffix (suffix_run _ after)
    obtain ⟨state₀, hm₀, -⟩ := hsplits.floor
    have hbefore := (goes_run hstart (hput.of_suffix (suffix_step _ _))).documented
    exact (continues_run hafter _).links origin ref (hsplits.links hbefore hm₀ hput).1
  · -- numbers only grow, and the split takes the next one
    have hbefore := (goes_run hs (hw'.of_suffix (suffix_step _ _))).documented
    obtain ⟨state', hm', hle⟩ := (continues_run hlater s).lastId m state hm
    obtain ⟨-, c, hc, hid⟩ := hsplits.links hbefore hm' hw'
    refine ⟨c, hc, fun x hx b hb => ?_⟩
    obtain ⟨b', hb', -, -, hmax⟩ := hchained.blocks x hx
    obtain rfl : b = b' := Option.some.inj (hb.symm.trans hb')
    omega

/-- A map is restored from a snapshot without its first block, which had lost its entries and is
made anew.  A put of 36 splits block 6 off block 3, and a put of 32 splits another one off, which
comes between them.  Block 8, which is split off by a put of 52, gets the greatest number. -/
theorem chained_run_restored :
    let sizing : Sizing := { maxBlockSize := 12, entryOverhead := 2, blockOverhead := 0 }
    let put (key : (Shape.uint .w8).Datum) :
      Command (Shape.uint .w8).Datum (Shape.uint .w8).Datum := .request (.put 0 key 0#8)
    let before := [.request (.make sizing 0), put 10#8, put 20#8, put 30#8, put 40#8, put 50#8,
      put 60#8, .request (.remove 0 10#8), .request (.remove 0 20#8), .request (.checkpoint 0),
      .boot 0 0, put 5#8, put 33#8]
    let after := [put 31#8, put 32#8]
    let s₁ := (start [.clock (.empty 1)] .inMemory {}).run before
    let s := (start [.clock (.empty 1)] .inMemory {}).run (before ++ put 36#8 :: after)
    let s₂ := s.run [put 51#8]
    (∃ state, s.engine.maps[0]? = some state ∧ state.directory.refs = [5, 3, 7, 6, 4] ∧
      s.engine.Chained state) ∧
    s₁.SplitsOff 0 36#8 0#8 3 6 ∧ Relation.TransGen s.engine.Links 3 6 ∧
    s₂.SplitsOff 0 52#8 0#8 4 8 ∧ ∃ c, (s₂.step (put 52#8)).2.engine.blocks[8]? = some c ∧
      ∀ r ∈ [5, 3, 7, 6, 4], ∀ b, s.engine.blocks[r]? = some b → b.id < c.id := by
  intro sizing put before after s₁ s s₂
  have hrefs : (s.engine.maps[0]?).map (·.directory.refs) = some [5, 3, 7, 6, 4] := by
    decide +kernel
  have hput₁ : (∃ state ∈ s₁.engine.maps[0]?, state.directory.floor? 36#8 = some 3 ∧
      6 ∉ state.directory.refs) ∧ ∃ state ∈ (s₁.step (put 36#8)).2.engine.maps[0]?,
        6 ∈ state.directory.refs ∧ 6 < (s₁.step (put 36#8)).2.engine.blocks.length := by
    decide +kernel
  have hput₂ : (∃ state ∈ s₂.engine.maps[0]?, state.directory.floor? 52#8 = some 4 ∧
      8 ∉ state.directory.refs) ∧ ∃ state ∈ (s₂.step (put 52#8)).2.engine.maps[0]?,
        8 ∈ state.directory.refs ∧ 8 < (s₂.step (put 52#8)).2.engine.blocks.length := by
    decide +kernel
  have hsplits {s : Session (Shape.uint .w8).Datum (Shape.uint .w8).Datum}
      {key : (Shape.uint .w8).Datum} {origin ref : BlockRef} (h : (∃ state ∈ s.engine.maps[0]?,
        state.directory.floor? key = some origin ∧ ref ∉ state.directory.refs) ∧
        ∃ state ∈ (s.step (put key)).2.engine.maps[0]?, ref ∈ state.directory.refs ∧
          ref < (s.step (put key)).2.engine.blocks.length) : s.SplitsOff 0 key 0#8 origin ref := by
    obtain ⟨⟨state, hm, hfloor, hnot⟩, state', hm', href, hlt⟩ := h
    refine ⟨⟨state, hm, hfloor⟩, ?_, _, state', hm', href, List.getElem?_eq_getElem hlt⟩
    rintro ⟨b, state₀, hm₀, href₀, -⟩
    exact hnot (Option.some.inj (hm₀.symm.trans hm) ▸ href₀)
  have hsplits₁ : s₁.SplitsOff 0 36#8 0#8 3 6 := hsplits hput₁
  have hsplits₂ : s₂.SplitsOff 0 52#8 0#8 4 8 := hsplits hput₂
  have hready : (Store.inMemory (K := (Shape.uint .w8).Datum) (V := (Shape.uint .w8).Datum)).Ready
      none {} := trivial
  have hrun : (start [.clock (.empty 1)] .inMemory {}).run (before ++ put 36#8 :: after) = s := rfl
  have hrun₁ : (start [.clock (.empty 1)] .inMemory {}).run before = s₁ := rfl
  have hrun₂ : s.run [put 51#8] = s₂ := rfl
  clear_value s₂ s s₁
  have hw (e : Engine (Shape.uint .w8).Datum (Shape.uint .w8).Datum) : e.Within none :=
    Engine.within_none _
  obtain ⟨state, hm, hstate⟩ := Option.map_eq_some_iff.1 hrefs
  obtain ⟨hchained, -, -, -, hreach, hlater⟩ := chained_run hready hrun (hw _) hm
  have hreached := hreach before 36#8 0#8 after 3 6 rfl (by simp [after, put])
  have hgreater := hlater [put 51#8] 52#8 0#8 4 8 (by simp [put])
  rw [hrun₁] at hreached
  rw [hrun₂] at hgreater
  obtain ⟨c, hc, hmax⟩ := hgreater hsplits₂ (hw _)
  refine ⟨⟨state, hm, hstate, hchained⟩, hsplits₁, hreached hsplits₁, hsplits₂, c, hc,
    fun r hr => ?_⟩
  obtain ⟨x, hx, rfl⟩ := List.mem_map.1 (hstate.symm ▸ hr)
  exact hmax x hx

end Session

end PagedMap
