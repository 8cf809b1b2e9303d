import Mathlib
import PagedMap.Proofs.Order
import PagedMap.Proofs.Session

/-!
# Recovery from a snapshot

A snapshot leaves out the blocks of size 0, so a map that is restored from it has the contents of
the layout if and only if these blocks are empty (`Layout.contents_revived_iff`).  They are empty if
no recorded size is less than the weight of the entries and every entry has an overhead
(`Layout.Covered.held_eq_nil`).

Therefore a snapshot brings back the contents of the map it was taken of, whatever happens in
between: requests that change or fail, other snapshots, and the folder of the page store being
opened again (`Session.boot_recovers`).
-/

namespace PagedMap

variable {K V : Type}

/-! ### Blocks that are left out -/

/-- Leaving out elements loses nothing if and only if they stand for nothing. -/
theorem flatMap_filter_eq_iff {α β : Type} {p : α → Bool} {f : α → List β} {l : List α} :
    (l.filter p).flatMap f = l.flatMap f ↔ ∀ x ∈ l, p x = false → f x = [] := by
  have hle (l : List α) : ((l.filter p).flatMap f).length ≤ (l.flatMap f).length := by
    induction l with
    | nil => exact Nat.le_refl _
    | cons x l ih =>
      by_cases hx : p x = true <;> simp [hx] at ih ⊢ <;> omega
  induction l with
  | nil => simp
  | cons x l ih =>
    rw [List.forall_mem_cons, List.flatMap_cons]
    by_cases hx : p x = true
    · simp [hx, ih]
    · rw [List.filter_cons_of_neg hx]
      refine ⟨fun h => ?_,
        fun ⟨hx', hl⟩ => by rw [hx' (by simpa using hx), ih.2 hl, List.nil_append]⟩
      have hlength := congrArg List.length h
      rw [List.length_append] at hlength
      have hnil : f x = [] := List.length_eq_zero_iff.1 (by have := hle l; omega)
      exact ⟨fun _ => hnil, ih.1 (by rw [h, hnil, List.nil_append])⟩

namespace Layout

variable {t : Layout K V}

/-- A restored layout has the contents if and only if the blocks of size 0 are empty. -/
theorem contents_revived_iff (base : BlockRef) (home : Home) :
    (place base (t.revived home)).contents = t.contents ↔
      ∀ s ∈ t, s.block.size = 0 → s.block.held = [] := by
  rw [contents_revived, contents, flatMap_filter_eq_iff]
  simp

/-- A block of size 0 is empty, if its size is no less than the weight of its entries and every
entry has an overhead. -/
theorem Covered.held_eq_nil [Sized K] [Sized V] (h : t.Covered)
    (hhomes : ∀ s ∈ t, 1 ≤ s.block.home.entryOverhead) :
    ∀ s ∈ t, s.block.size = 0 → s.block.held = [] := by
  intro s hs hsize
  have hexcess := h s hs
  rw [Block.excess, hsize] at hexcess
  rw [List.eq_nil_iff_forall_not_mem]
  intro entry hentry
  have hle : s.block.home.weight entry ≤ (s.block.held.map s.block.home.weight).sum :=
    List.le_sum_of_mem (List.mem_map_of_mem hentry)
  have hoverhead : s.block.home.entryOverhead ≤ s.block.home.weight entry := Nat.le_add_left _ _
  have hone := hhomes s hs
  omega

end Layout

/-! ### Restoring -/

namespace Session

variable [Wire K] [Wire V] [LE K] [DecidableLE K] [Std.IsLinearOrder K] [Sized K] [Sized V]

variable {s : Session K V} {x : Saved K} {t : Layout K V} {limit : Option Nat} {m n i j : Nat}
  {state state' : MapState K}

/-- What comes of restoring a map from the snapshot of a layout: the map has this layout without the
blocks of size 0, and its contents, if these are empty. -/
theorem boot_spec (hs : s.Documented limit) (hm : s.engine.maps[m]? = some state)
    (hx : s.saved[n]? = some x) (ht : s.engine.Documents x t) :
    (s.step (.boot m n)).1 = .done ∧
      Engine.Changes limit m s.engine (s.step (.boot m n)).2.engine ∧
      ∃ base, (s.step (.boot m n)).2.engine.layout m =
        Layout.place base (t.revived state.home) := by
  obtain ⟨lastId, htiled⟩ := ht.tiled
  simp only [step, hm, hx, true_and]
  exact Engine.restore_spec hs.engine hm ht.describes htiled

/-- A map that is restored from the snapshot of a layout whose blocks of size 0 are empty mirrors
the contents of that layout, and the other maps mirror what they did. -/
theorem mirror_boot (hs : s.Documented limit) (hm : s.engine.maps[m]? = some state)
    (hx : s.saved[n]? = some x) (ht : s.engine.Documents x t)
    (hempty : ∀ b ∈ t, b.block.size = 0 → b.block.held = []) :
    (s.step (.boot m n)).2.engine.contents m = t.contents ∧
      (s.step (.boot m n)).2.engine.mirror =
        s.engine.mirror.modify m fun o => { o with entries := t.contents } := by
  obtain ⟨-, hchanges, base, hlayout⟩ := boot_spec hs hm hx ht
  have hcontents : (s.step (.boot m n)).2.engine.contents m = t.contents := by
    rw [Engine.contents, hlayout]
    exact (Layout.contents_revived_iff base state.home).2 hempty
  refine ⟨hcontents, hchanges.mirror_eq_modify hm ?_⟩
  rw [hcontents]
  rfl

/-! ### Taking a snapshot and going on -/

variable [Lossless K] [Lossless V] {snapshot : Snapshot K}

omit [Std.IsLinearOrder K] in
theorem maps_checkpoint (s : Session K V) (m : Nat) :
    (s.step (.request (.checkpoint m))).2.engine.maps = s.engine.maps := by
  change (s.engine.serve (.checkpoint m)).2.maps = s.engine.maps
  unfold Engine.serve
  split
  · exact Engine.Keeps.maps (Engine.keeps_snapshot rfl :
      Engine.Keeps none s.engine (Act.run (Engine.snapshot m) s.engine).2)
  · rfl

/-- What comes of taking a snapshot: it is the next one saved, and was taken of the layout. -/
theorem checkpoint_spec (hs : s.Documented limit) (hm : s.engine.maps[m]? = some state)
    (ha : (s.step (.request (.checkpoint m))).1 = .snapshot snapshot)
    (hw : (s.step (.request (.checkpoint m))).2.engine.Within limit) :
    ∃ x, (s.step (.request (.checkpoint m))).2.saved[s.saved.length]? = some x ∧
      x.entryOverhead = state.home.entryOverhead ∧
      (s.step (.request (.checkpoint m))).2.engine.Documents x (s.engine.layout m) := by
  set x : Saved K := { entryOverhead := state.home.entryOverhead, snapshot } with hx
  rcases hserve : s.engine.serve (.checkpoint m) with ⟨a, e⟩
  obtain rfl : a = .snapshot snapshot := by simpa [step, hserve] using ha
  have htaken : s.engine.taken (.checkpoint m) (.snapshot snapshot) = [x] :=
    Engine.taken_checkpoint hm
  have hstep :
      (s.step (.request (.checkpoint m))).2 = { engine := e, saved := s.saved ++ [x] } := by
    simp [step, hserve, htaken]
  rw [hstep] at hw ⊢
  have hserved := Engine.serve_spec hs.engine hw hserve
  obtain ⟨m', hm', hdocuments⟩ := hserved.documents hs.engine (htaken ▸ List.mem_singleton_self x)
  obtain rfl := Request.checkpoint.inj hm'
  exact ⟨x, by simp, rfl, hdocuments⟩

/-- A snapshot goes on to be the one saved, and to describe the layout it was taken of. -/
theorem checkpoint_run {between : List (Command K V)} (hs : s.Documented limit)
    (hm : s.engine.maps[m]? = some state)
    (ha : (s.step (.request (.checkpoint m))).1 = .snapshot snapshot)
    (hw : (s.run (.request (.checkpoint m) :: between)).engine.Within limit) :
    (s.run (.request (.checkpoint m) :: between)).Documented limit ∧
      ∃ x, (s.run (.request (.checkpoint m) :: between)).saved[s.saved.length]? = some x ∧
        x.entryOverhead = state.home.entryOverhead ∧
        (s.run (.request (.checkpoint m) :: between)).engine.Documents x (s.engine.layout m) := by
  have hw' := hw.of_suffix (suffix_run (s.step (.request (.checkpoint m))).2 between)
  obtain ⟨x, hx, hoverhead, hdocuments⟩ := checkpoint_spec hs hm ha hw'
  have hgoes := goes_run (goes_step hs hw').documented hw
  obtain ⟨rest, hrest⟩ := hgoes.saved
  refine ⟨hgoes.documented, x, ?_, hoverhead, hgoes.documents hdocuments⟩
  change ((s.step (.request (.checkpoint m))).2.run between).saved[_]? = _
  rw [← hrest, List.getElem?_append_left (List.getElem?_eq_some_iff.1 hx).1]
  exact hx

variable {policies : List (Policy BlockRef)} {store : Store K V} {volume : Volume}
  {before between : List (Command K V)} {s₁ s₂ s₃ : Session K V} {a : Answer K V}

/-- Let a map with an overhead for every entry be in any state that a session comes to, in which
maps were restored from snapshots of maps with at least their overhead only.  If a snapshot of the
map is taken and anything may happen afterwards, then a map that is restored from the snapshot has
the contents at that time, all other maps keep theirs, and from there on all maps answer like
ordered maps that start with these contents, as long as no call of the page store fails. -/
theorem boot_recovers (hready : store.Ready limit volume)
    (hadmits : (start policies store volume).AdmitsAll before)
    (hbefore : (start policies store volume).run before = s₁)
    (hi : s₁.engine.maps[i]? = some state) (hoverhead : 1 ≤ state.home.entryOverhead)
    (hcheckpoint : (s₁.step (.request (.checkpoint i))).1 = .snapshot snapshot)
    (hbetween : s₁.run (.request (.checkpoint i) :: between) = s₂)
    (hj : s₂.engine.maps[j]? = some state') (hboot : s₂.step (.boot j s₁.saved.length) = (a, s₃))
    (hw : s₃.engine.Within limit) :
    a = .done ∧ s₃.engine.contents j = s₁.engine.contents i ∧
      s₃.engine.mirror =
        s₂.engine.mirror.modify j (fun o => { o with entries := s₁.engine.contents i }) ∧
      ∀ (after : List (Request K V)) as e, s₃.engine.serveAll after = (as, e) → e.Within limit →
        Engine.Undisturbed s₃.engine e →
        s₃.engine.mirror.AcceptsAll after as ∧ e.mirror = s₃.engine.mirror.afterAll after := by
  obtain ⟨rfl, rfl⟩ : a = (s₂.step (.boot j s₁.saved.length)).1 ∧
      s₃ = (s₂.step (.boot j s₁.saved.length)).2 := by simp [hboot]
  have hw₂ : s₂.engine.Within limit := hw.of_suffix (suffix_step s₂ _)
  have hw₁ : s₁.engine.Within limit := hw₂.of_suffix (hbetween ▸ suffix_run s₁ _)
  have hs₁ : s₁.Documented limit := by
    subst hbefore
    exact (goes_run (documented_start hready) hw₁).documented
  have hcovered : s₁.Covered := by
    subst hbefore
    exact (covered_start policies store volume).run (documented_start hready) hadmits hw₁
  -- a snapshot leaves out the blocks of size 0, and these have no entries
  have hempty : ∀ b ∈ s₁.engine.layout i, b.block.size = 0 → b.block.held = [] := by
    refine (hcovered.layouts i).held_eq_nil fun b hb => ?_
    rw [(hs₁.engine.holds i state hi).homes b hb]
    exact hoverhead
  obtain ⟨hs₂, x, hx, -, hdocuments⟩ :
    s₂.Documented limit ∧ ∃ x, s₂.saved[s₁.saved.length]? = some x ∧
      x.entryOverhead = state.home.entryOverhead ∧
      s₂.engine.Documents x (s₁.engine.layout i) := by
    subst hbetween
    exact checkpoint_run hs₁ hi hcheckpoint hw₂
  obtain ⟨hdone, hchanges, -⟩ := boot_spec hs₂ hj hx hdocuments
  obtain ⟨hcontents, hmirror⟩ := mirror_boot hs₂ hj hx hdocuments hempty
  refine ⟨hdone, hcontents, hmirror, fun after as e hrun hwithin hun => ?_⟩
  obtain ⟨-, haccepts, hafter⟩ := Engine.serveAll_spec hchanges.allHold hrun hwithin hun
  exact ⟨haccepts, hafter⟩

/-- Two blocks are brought back into a new map after the first one was changed and cleared and its
folder was opened again. -/
theorem boot_recovers_reopened :
    let sizing : Sizing := { maxBlockSize := 12, entryOverhead := 2, blockOverhead := 0 }
    let policies : List (Policy BlockRef) := [.clock (.empty 1)]
    let store : Store (Shape.uint .w8).Datum (Shape.uint .w8).Datum :=
      { backing := .folder { directory := ["pages"], nextPage := 1 } }
    let volume : Volume := { nodes := [(["pages"], .directory)] }
    let s₁ := (start policies store volume).run (List.map .request [.make sizing 0, .put 0 5#8 1#8,
      .put 0 3#8 2#8, .put 0 9#8 3#8, .put 0 7#8 4#8, .remove 0 3#8])
    let s₂ := s₁.run [.request (.checkpoint 0), .request (.put 0 5#8 6#8), .request (.clear 0),
      .reopen policies, .request (.make sizing 0)]
    let s₃ := (s₂.step (.boot 0 0)).2
    let es : Entries (Shape.uint .w8).Datum (Shape.uint .w8).Datum :=
      [(5#8, 1#8), (7#8, 4#8), (9#8, 3#8)]
    s₂.engine.contents 0 = [] ∧ s₃.engine.contents 0 = es := by
  intro sizing policies store volume s₁ s₂ s₃ es
  have hready : store.Ready (some 9) volume :=
    ⟨9, rfl, by decide, by decide, {}, by decide +kernel⟩
  have hfirst : ∃ state ∈ s₁.engine.maps[0]?, 1 ≤ state.home.entryOverhead := by decide +kernel
  have hsecond : ∃ state ∈ s₂.engine.maps[0]?, 1 ≤ state.home.entryOverhead := by decide +kernel
  have hsaved : s₁.saved.length = 0 := by decide +kernel
  have hcheckpoint : (s₁.step (.request (.checkpoint 0))).1 =
      .snapshot ⟨[⟨3#8, 5#8, 0, 4, 3⟩, ⟨7#8, 9#8, 1, 8, 2⟩]⟩ := by decide +kernel
  have hcreations : s₃.engine.creations ≤ 9 := by decide +kernel
  have hshort : ∀ event ∈ s₃.engine.events, event.written.length < 3 := by decide +kernel
  have hcontents : s₁.engine.contents 0 = es := by decide +kernel
  have hempty : s₂.engine.contents 0 = [] := by decide +kernel
  have hrun₁ : (start policies store volume).run _ = s₁ := rfl
  have hrun₂ : s₁.run _ = s₂ := rfl
  have hboot : s₂.step (.boot 0 s₁.saved.length) = ((s₂.step (.boot 0 0)).1, s₃) := by rw [hsaved]
  clear_value s₁ s₂ s₃
  have hw : s₃.engine.Within (some 9) :=
    Engine.within_some hcreations (fun _ => ⟨trivial, trivial⟩) fun event hevent =>
      Nat.lt_trans (hshort event hevent) (by decide)
  obtain ⟨state, hi, hoverhead⟩ := hfirst
  obtain ⟨state', hj, -⟩ := hsecond
  exact ⟨hempty, (boot_recovers hready (admitsAll_requests _ _) hrun₁ hi hoverhead hcheckpoint hrun₂
    hj hboot hw).2.1.trans hcontents⟩

end Session

end PagedMap
