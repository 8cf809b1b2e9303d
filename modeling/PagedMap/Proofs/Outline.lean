import Mathlib
import PagedMap.Proofs.Calls

/-!
# What does not depend on where entries are

Two engines are alike (`Engine.Alike`) if they have the same maps with the same layouts and equally
many blocks.  They may have different policies and page stores, and different blocks in memory.

A put and a removal make one thing of a layout (`Layout.Put.unique`, `Layout.Removal.unique`).  The
number of blocks and the highest number given to a block follow from what is listed
(`Engine.Enlarges`).  So engines that are alike stay alike when they take steps that make the same
layouts of them (`Engine.Alike.steps`), and paging does not matter (`Engine.Keeps.alike`).
-/

namespace PagedMap

variable {K V : Type}

/-! ### Changes of layouts -/

namespace Layout

/-- The last element of a list that has a property is at one place. -/
theorem append_cons_unique {α : Type} {p : α → Bool} {pre pre' post post' : List α} {x y : α}
    (h : pre ++ x :: post = pre' ++ y :: post') (hx : p x = true) (hy : p y = true)
    (hpost : ∀ n ∈ post, p n = false) (hpost' : ∀ n ∈ post', p n = false) :
    pre = pre' ∧ x = y ∧ post = post' := by
  induction pre generalizing pre' with
  | nil =>
    cases pre' with
    | nil =>
      obtain ⟨rfl, rfl⟩ := List.cons.inj h
      exact ⟨rfl, rfl, rfl⟩
    | cons a pre' =>
      obtain ⟨rfl, rfl⟩ := List.cons.inj h
      have hfalse := hpost y (List.mem_append_right _ List.mem_cons_self)
      exact absurd hy (by simp [hfalse])
  | cons a pre ih =>
    cases pre' with
    | nil =>
      obtain ⟨rfl, rfl⟩ := List.cons.inj h
      have hfalse := hpost' x (List.mem_append_right _ List.mem_cons_self)
      exact absurd hx (by simp [hfalse])
    | cons b pre' =>
      obtain ⟨rfl, hrest⟩ := List.cons.inj h
      obtain ⟨rfl, rfl, rfl⟩ := ih hrest
      exact ⟨rfl, rfl, rfl⟩

variable [LE K] [DecidableLE K] [Sized K] [Sized V] {home : Home} {ref : BlockRef}
  {key : K} {value : V} {lastId l₁ l₂ : Nat} {t t₁ t₂ : Layout K V}

/-- Where a block takes the key of a put, the put is one into this block. -/
theorem Put.of_reaches {pre post : Layout K V} {s : Stretch K V}
    (h : Put home ref key value lastId (pre ++ s :: post) t₁ l₁)
    (hs : s.block.start.reaches key = true)
    (hpost : ∀ n ∈ post, n.block.start.reaches key = false) :
    (((s.block.insert s.block.held key value).home.budget <
          (s.block.insert s.block.held key value).size →
        (s.block.insert s.block.held key value).split? (lastId + 1) ref = none) ∧
      t₁ = pre ++ ⟨s.ref, s.block.insert s.block.held key value⟩ :: post) ∨
    (s.block.insert s.block.held key value).home.budget <
        (s.block.insert s.block.held key value).size ∧
      ∃ lower upper, (s.block.insert s.block.held key value).split? (lastId + 1) ref =
          some (lower, upper) ∧
        t₁ = pre ++ ⟨s.ref, lower⟩ :: ⟨ref, upper⟩ :: post := by
  generalize ht : pre ++ s :: post = t at h
  cases h with
  | plant hkey =>
    subst ht
    simp [hkey s (List.mem_append_right _ List.mem_cons_self)] at hs
  | grow hs' hpost' hb hfits =>
    obtain ⟨rfl, rfl, rfl⟩ := append_cons_unique ht hs hs' hpost hpost'
    subst hb
    exact Or.inl ⟨hfits, rfl⟩
  | split hs' hpost' hb hover hsplit =>
    obtain ⟨rfl, rfl, rfl⟩ := append_cons_unique ht hs hs' hpost hpost'
    subst hb
    exact Or.inr ⟨hover, _, _, hsplit, rfl⟩

/-- A put makes one thing of a layout. -/
theorem Put.unique (h₁ : Put home ref key value lastId t t₁ l₁)
    (h₂ : Put home ref key value lastId t t₂ l₂) : t₁ = t₂ := by
  cases h₁ with
  | plant hkey =>
    cases h₂ with
    | plant => rfl
    | grow hs => simp [hkey _ (List.mem_append_right _ List.mem_cons_self)] at hs
    | split hs => simp [hkey _ (List.mem_append_right _ List.mem_cons_self)] at hs
  | grow hs hpost hb hfits =>
    subst hb
    rcases h₂.of_reaches hs hpost with ⟨-, rfl⟩ | ⟨hover, lower, upper, hsplit, -⟩
    · rfl
    · simp [hfits hover] at hsplit
  | split hs hpost hb hover hsplit =>
    subst hb
    rcases h₂.of_reaches hs hpost with ⟨hfits, -⟩ | ⟨-, lower', upper', hsplit', rfl⟩
    · simp [hfits hover] at hsplit
    · obtain ⟨rfl, rfl⟩ := Prod.mk.inj (Option.some.inj (hsplit.symm.trans hsplit'))
      rfl

theorem Removal.unique [Std.IsLinearOrder K] (ht : t.Tiled lastId) (h₁ : Removal key t t₁)
    (h₂ : Removal key t t₂) : t₁ = t₂ := by
  cases h₁ with
  | none hkey =>
    cases h₂ with
    | none => rfl
    | one hs => simp [hkey _ (List.mem_append_right _ List.mem_cons_self)] at hs
  | @one pre post s hs =>
    obtain ⟨-, hpost⟩ := ht.not_covers hs
    generalize heq : pre ++ s :: post = t at h₂ ht
    cases h₂ with
    | none hkey =>
      subst heq
      simp [hkey s (List.mem_append_right _ List.mem_cons_self)] at hs
    | @one pre' post' s' hs' =>
      obtain ⟨rfl, rfl, rfl⟩ :=
        append_cons_unique (p := fun s => s.block.covers key) heq hs hs' hpost (ht.not_covers hs').2
      rfl

end Layout

namespace Engine

/-! ### What follows from what is listed -/

/-- A map that had `n` blocks in its engine lists more blocks, which are all the blocks that came to
be.  The highest number is as before, or that of a block. -/
structure Enlarges (state state' : MapState K) (n n' : Nat) : Prop where
  home : state'.home = state.home
  directory : state.directory ⊆ state'.directory
  count : n' + state.directory.length = n + state'.directory.length
  lastId_le : state.lastId ≤ state'.lastId
  highest : state'.lastId = state.lastId ∨ ∃ x ∈ state'.directory, x.1.id = state'.lastId

variable {e e' : Engine K V} {m : Nat} {state state' state'' : MapState K} {n n' n'' : Nat}

theorem Enlarges.refl (state : MapState K) (n : Nat) : Enlarges state state n n :=
  ⟨rfl, List.Subset.refl _, rfl, Nat.le_refl _, Or.inl rfl⟩

theorem Enlarges.trans (h : Enlarges state state' n n') (h' : Enlarges state' state'' n' n'') :
    Enlarges state state'' n n'' where
  home := h'.home.trans h.home
  directory := List.Subset.trans h.directory h'.directory
  count := by
    have hcount := h.count
    have hcount' := h'.count
    omega
  lastId_le := h.lastId_le.trans h'.lastId_le
  highest := by
    rcases h'.highest with hsame | hlisted
    · rcases h.highest with hsame' | ⟨x, hx, hid⟩
      · exact Or.inl (hsame.trans hsame')
      · exact Or.inr ⟨x, h'.directory hx, hid.trans hsame.symm⟩
    · exact Or.inr hlisted

/-- The highest number follows from what is listed. -/
theorem Enlarges.lastId_eq {state₁ state₂ : MapState K} {n₁ n₂ : Nat}
    (h₁ : Enlarges state state₁ n n₁) (h₂ : Enlarges state state₂ n n₂)
    (hdirectory : state₁.directory = state₂.directory)
    (hids₁ : ∀ x ∈ state₁.directory, x.1.id ≤ state₁.lastId)
    (hids₂ : ∀ x ∈ state₂.directory, x.1.id ≤ state₂.lastId) : state₁.lastId = state₂.lastId := by
  have hle {a b : MapState K} {i j : Nat} (ha : Enlarges state a n i) (hb : Enlarges state b n j)
      (hsame : a.directory = b.directory) (hids : ∀ x ∈ b.directory, x.1.id ≤ b.lastId) :
      a.lastId ≤ b.lastId := by
    rcases ha.highest with heq | ⟨x, hx, heq⟩
    · exact heq ▸ hb.lastId_le
    · exact heq ▸ hids x (hsame ▸ hx)
  exact Nat.le_antisymm (hle h₁ h₂ hdirectory hids₂) (hle h₂ h₁ hdirectory.symm hids₁)

variable [Wire K] [Wire V] [LE K] [DecidableLE K] {x y : Finset BlockRef × Engine K V}

/-- What a step of a map makes of its directory. -/
theorem Step.enlarges (hstep : Step m x y) (hm : x.2.maps[m]? = some state) :
    ∃ state', y.2.maps[m]? = some state' ∧
      Enlarges state state' x.2.blocks.length y.2.blocks.length := by
  have hpaging {e e' : Engine K V} (hm : e.maps[m]? = some state) (hp : Paging e e') :
      ∃ state', e'.maps[m]? = some state' ∧
        Enlarges state state' e.blocks.length e'.blocks.length :=
    ⟨state, hp.maps.symm ▸ hm, hp.length.symm ▸ .refl _ _⟩
  cases hstep with
  | read hl hrun => exact hpaging hm (paging_access hl.blocks_eq hrun)
  | unread hl hrun => exact hpaging hm (paging_access hl.blocks_eq hrun)
  | @edit p e ref b b' =>
    have hlength : (e.setBlock ref b').blocks.length = e.blocks.length := List.length_set
    exact ⟨state, hm, hlength.symm ▸ .refl _ _⟩
  | @list p e state₀ b lastId hm₀ hb =>
    obtain rfl : state = state₀ := Option.some.inj (hm.symm.trans hm₀)
    obtain ⟨hlt, -⟩ := List.getElem?_eq_some_iff.1 hm
    have hperm := Directory.perm_insert e.blocks.length fun y hy => hb.id ▸ hb.fresh y hy
    have hlength := hperm.length_eq
    refine ⟨_, List.getElem?_set_self hlt, rfl,
      fun y hy => hperm.symm.subset (List.mem_cons_of_mem _ hy),
      ?_, hb.lastId_eq ▸ Nat.le_max_left _ _, ?_⟩
    · simp only [enlist, setMap, addBlock, List.length_append, List.length_singleton]
      rw [hlength, List.length_cons]
      omega
    · rcases Nat.le_total b.id state.lastId with hle | hle
      · exact Or.inl (hb.lastId_eq.trans (Nat.max_eq_left hle))
      · refine Or.inr ⟨(b.start, e.blocks.length), hperm.symm.subset List.mem_cons_self, ?_⟩
        exact hb.id.symm.trans (hb.lastId_eq.trans (Nat.max_eq_right hle)).symm
  | hit => exact hpaging hm (paging_hitPage _ _ _)
  | add => exact hpaging hm (paging_addPage _ _ _)
  | persist _ hrun => exact hpaging hm (quiet_persist hrun).1.toPaging
  | look => exact ⟨state, hm, .refl _ _⟩
  | note => exact ⟨state, hm, .refl _ _⟩

theorem Steps.enlarges (hsteps : Steps m x y) (hm : x.2.maps[m]? = some state) :
    ∃ state', y.2.maps[m]? = some state' ∧
      Enlarges state state' x.2.blocks.length y.2.blocks.length := by
  induction hsteps with
  | refl => exact ⟨state, hm, .refl _ _⟩
  | tail _ hstep ih =>
    obtain ⟨state', hm', henlarges⟩ := ih
    obtain ⟨state'', hm'', henlarges'⟩ := hstep.enlarges hm'
    exact ⟨state'', hm'', henlarges.trans henlarges'⟩

/-! ### Engines that are alike -/

/-- The engines have the same maps, the same layouts, and equally many blocks. -/
structure Alike (e₁ e₂ : Engine K V) : Prop where
  maps : e₁.maps = e₂.maps
  count : e₁.blocks.length = e₂.blocks.length
  layouts : ∀ m, e₁.layout m = e₂.layout m

variable {e₁ e₂ e₃ e₁' e₂' : Engine K V} {limit limit₁ limit₂ : Option Nat}

theorem Alike.symm (h : Alike e₁ e₂) : Alike e₂ e₁ :=
  ⟨h.maps.symm, h.count.symm, fun m => (h.layouts m).symm⟩

theorem Alike.trans (h : Alike e₁ e₂) (h' : Alike e₂ e₃) : Alike e₁ e₃ :=
  ⟨h.maps.trans h'.maps, h.count.trans h'.count, fun m => (h.layouts m).trans (h'.layouts m)⟩

/-- Engines that are alike have the same contents. -/
theorem Alike.mirror_eq (h : Alike e₁ e₂) : e₁.mirror = e₂.mirror := by
  have hcontents (m : Nat) : e₁.contents m = e₂.contents m := congrArg _ (h.layouts m)
  simp only [mirror, h.maps, hcontents]

/-! ### Changes of engines that are alike -/

omit [Wire K] [Wire V] [LE K] [DecidableLE K] in
theorem length_foldl {f : Engine K V → BlockRef → Engine K V}
    (hf : ∀ e ref, (f e ref).blocks.length = e.blocks.length) (refs : List BlockRef)
    (e : Engine K V) : (refs.foldl f e).blocks.length = e.blocks.length := by
  induction refs generalizing e with
  | nil => rfl
  | cons ref refs ih => exact (ih _).trans (hf e ref)

omit [Wire K] [Wire V] [LE K] [DecidableLE K] in
theorem length_give_up (he : e' = e.clear m ∨ e' = e.drop m) :
    e'.blocks.length = e.blocks.length := by
  have hdiscard (e : Engine K V)
      (ref : BlockRef) : (e.discard ref).blocks.length = e.blocks.length := by
    cases hb : e.blocks[ref]? with
    | none => simp [discard, hb]
    | some b => rw [blocks_discard hb, List.length_set]
  have hclear : (e.clear m).blocks.length = e.blocks.length := by
    unfold clear
    split
    · rfl
    · exact length_foldl hdiscard _ _
  rcases he with rfl | rfl
  · exact hclear
  · unfold drop
    split
    · rfl
    · exact (length_foldl (fun e ref => List.length_modify ..) _ _).trans hclear

/-- Paging does not matter. -/
theorem Keeps.alike [Lossless K] [Lossless V] (hk : Keeps limit e e') (hw : e'.Within limit)
    (hs : e.AllHold limit) : Alike e' e :=
  ⟨hk.maps, hk.length, hk.layout hw hs⟩

/-- Steps that make the same layouts of engines that are alike. -/
theorem Alike.steps (h : Alike e₁ e₂) (ht₁ : e₁.Tidy) (ht₂ : e₂.Tidy)
    (hm : e₁.maps[m]? = some state) (hsteps₁ : Steps m (∅, e₁) (∅, e₁'))
    (hsteps₂ : Steps m (∅, e₂) (∅, e₂')) (hs₁ : e₁'.AllHold limit₁) (hs₂ : e₂'.AllHold limit₂)
    (hlayouts : ∀ i, e₁'.layout i = e₂'.layout i) : Alike e₁' e₂' := by
  have hret₁ := Steps.retains hsteps₁ ht₁
  have hret₂ := Steps.retains hsteps₂ ht₂
  obtain ⟨state₁, hm₁, henlarges₁⟩ := hsteps₁.enlarges hm
  obtain ⟨state₂, hm₂, henlarges₂⟩ := hsteps₂.enlarges (h.maps ▸ hm)
  have hdirectory : state₁.directory = state₂.directory := by
    rw [(hs₁.holds m state₁ hm₁).directory, (hs₂.holds m state₂ hm₂).directory, hlayouts]
  rw [h.count] at henlarges₁
  have hlastId := henlarges₁.lastId_eq henlarges₂ hdirectory (hret₁.tidy m state₁ hm₁).ids
    (hret₂.tidy m state₂ hm₂).ids
  have hstate : state₁ = state₂ := by
    obtain ⟨home₁, directory₁, lastId₁⟩ := state₁
    obtain ⟨home₂, directory₂, lastId₂⟩ := state₂
    have hhome : home₁ = home₂ := henlarges₁.home.trans henlarges₂.home.symm
    simp only at hdirectory hlastId
    rw [hhome, hdirectory, hlastId]
  refine ⟨List.ext_getElem? fun i => ?_, ?_, hlayouts⟩
  · by_cases hi : i = m
    · rw [hi, hm₁, hm₂, hstate]
    · rw [hret₁.others i hi, hret₂.others i hi, h.maps]
  · have hcount₁ : e₁'.blocks.length + state.directory.length =
        e₂.blocks.length + state₁.directory.length := henlarges₁.count
    have hcount₂ : e₂'.blocks.length + state.directory.length =
        e₂.blocks.length + state₂.directory.length := henlarges₂.count
    rw [hdirectory] at hcount₁
    omega

/-- What changes one map makes equal layouts of engines that are alike if it does so for this
map. -/
theorem Alike.layouts_changed (h : Alike e₁ e₂) (hc₁ : Changes limit₁ m e₁ e₁')
    (hc₂ : Changes limit₂ m e₂ e₂') (hm : e₁'.layout m = e₂'.layout m) (i : Nat) :
    e₁'.layout i = e₂'.layout i := by
  by_cases hi : i = m
  · rw [hi, hm]
  · rw [hc₁.others i hi, hc₂.others i hi, h.layouts i]

/-- Engines that are alike remain so when a map gives up all blocks in both. -/
theorem Alike.give_up (h : Alike e₁ e₂) (hs₁ : e₁.AllHold limit₁) (hs₂ : e₂.AllHold limit₂)
    (hm : e₁.maps[m]? = some state) (he : e₁' = e₁.clear m ∧ e₂' = e₂.clear m ∨
      e₁' = e₁.drop m ∧ e₂' = e₂.drop m) : Alike e₁' e₂' := by
  have hm₂ : e₂.maps[m]? = some state := h.maps ▸ hm
  have he₁ : e₁' = e₁.clear m ∨ e₁' = e₁.drop m := he.imp And.left And.left
  have he₂ : e₂' = e₂.clear m ∨ e₂' = e₂.drop m := he.imp And.right And.right
  have hempty {e e' : Engine K V} {limit : Option Nat} (hs : e.AllHold limit)
      (hm : e.maps[m]? = some state) (he : e' = e.clear m ∨ e' = e.drop m) :
      Changes limit m e e' ∧ e'.layout m = [] := by
    rcases he with rfl | rfl
    · obtain ⟨hc, hlayout, -⟩ := clear_spec hs hm
      exact ⟨hc, hlayout⟩
    · exact drop_spec hs hm
  obtain ⟨hc₁, hlayout₁⟩ := hempty hs₁ hm he₁
  obtain ⟨hc₂, hlayout₂⟩ := hempty hs₂ hm₂ he₂
  refine ⟨?_, ?_, h.layouts_changed hc₁ hc₂ (hlayout₁.trans hlayout₂.symm)⟩
  · rw [maps_give_up hm he₁, maps_give_up hm₂ he₂, h.maps]
  · rw [length_give_up he₁, length_give_up he₂, h.count]

end Engine

end PagedMap
