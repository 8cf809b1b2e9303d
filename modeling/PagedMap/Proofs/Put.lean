import Mathlib
import PagedMap.Engine.Edit
import PagedMap.Proofs.Change
import PagedMap.Proofs.Standing

/-!
# Putting an entry

A put that is refused changes nothing, a put that cannot read its block changes no layout, and any
other put changes the layout of its map as `Layout.Put` says and gives the value stored before
(`Engine.put_spec`).  In particular no put goes round for ever: the block that the directory names
takes the key, since its successor starts after it (`Engine.isPast_eq_false`).
-/

namespace PagedMap

variable {K V : Type} [LE K] [DecidableLE K] [Sized K] [Sized V]

namespace Block

omit [LE K] [DecidableLE K] in
/-- A split does not depend on where the entries were. -/
theorem split?_settled {b : Block K V} {es : Entries K V} (h : b.entries = some es) (id : Nat)
    (ref : BlockRef) : (b.settled es).split? id ref =
      (b.split? id ref).map fun p => (p.1.settled p.1.held, p.2.settled p.2.held) := by
  have hsettled : (b.settled es).entries = some es := rfl
  unfold split?
  rw [h, hsettled]
  simp only [Option.bind_eq_bind, Option.bind_some, Option.map_bind]
  congr 1
  funext ⟨front, back, weight⟩
  simp only [Function.comp]
  cases front.head? <;> cases front.getLast? <;> cases back.head? <;> cases back.getLast? <;> rfl

omit [LE K] [DecidableLE K] in
/-- The parts of a block are in memory, are not on pages, and stay in its home. -/
theorem split?_parts {b lower upper : Block K V} {id : Nat} {ref : BlockRef}
    (h : b.split? id ref = some (lower, upper)) :
    lower.entries = some lower.held ∧ lower.dirty = b.dirty ∧ lower.home = b.home ∧
      lower.start = b.start ∧ upper.entries = some upper.held ∧ upper.dirty = true ∧
      upper.home = b.home := by
  obtain ⟨_, _, _, -, _, _, _, _, -, -, -, -, rfl, rfl⟩ := split?_eq_some h
  exact ⟨rfl, rfl, rfl, rfl, rfl, rfl, rfl⟩

end Block

namespace Engine

variable [Wire K] [Wire V]

variable {e e' : Engine K V} {m : Nat} {state : MapState K} {s : Stretch K V}
  {t pre post : Layout K V} {limit : Option Nat} {ref : BlockRef} {b : Block K V}
  {key : K} {value : V}

omit [Sized K] [Sized V] in
/-- The block that takes a key is not passed by. -/
theorem isPast_eq_false (hh : e.Holds m state (pre ++ s :: post))
    (hpost : ∀ n ∈ post, n.block.start.reaches key = false)
    (hs : s.block = b.settled (e.content b)) :
    e.isPast b key = false := by
  have hnext : s.block.next = b.next := by rw [hs]; rfl
  have hlinked := hh.tiled.linked.right.1
  unfold isPast
  split
  · rename_i n hn
    obtain ⟨r, hr, hget⟩ := Option.bind_eq_some_iff.1 hn
    obtain ⟨x, hx, href⟩ := hlinked r (hnext ▸ hr)
    have hmem : x ∈ post := List.mem_of_head? hx
    obtain ⟨n', hn', -, hxb⟩ := hh.shows x (by simp [hmem])
    obtain rfl : n = n' := Option.some.inj (hget.symm.trans (href ▸ hn'))
    obtain ⟨k, hk, hlt⟩ := Layout.exists_start_of_not_reaches (hpost x hmem)
    have hk' : n.start.key? = some k := by rw [hxb] at hk; exact hk
    simp [hk', hlt]
  · rfl

/-- Puts a block that took an entry in its place and splits it if it outgrew its budget. -/
def settle (m : Nat) (ref : BlockRef) (grown : Block K V) (e : Engine K V) :
    Option (BlockRef × Block K V) × Engine K V :=
  if grown.home.budget < grown.size then split m ref grown (e.setBlock ref grown)
  else (none, e.setBlock ref grown)

/-- What is told to the policy after an entry was put into a block. -/
def report (ref : BlockRef) (b : Block K V) (product : Option (BlockRef × Block K V))
    (e : Engine K V) : Engine K V :=
  match product with
  | some (upperRef, upper) => (e.touch ref b).addPage upper.home.policy (upper.pageOf upperRef)
  | none => e.touch ref b

omit [Wire K] [Wire V] in
theorem suffix_settle (m : Nat) (ref : BlockRef) (grown : Block K V) (e : Engine K V) :
    e.events <:+ (settle m ref grown e).2.events := by
  dsimp only [settle]
  split
  · have hsplit := extends_split m ref grown (e.setBlock ref grown)
    exact hsplit.events
  · exact List.suffix_refl _

/-- A put into a block that takes the key reads the block, changes it and tells the policy. -/
theorem run_putInto (hb : e.blocks[ref]? = some b) (hpast : e.isPast b key = false) :
    Act.run (putInto m ref key value) e =
      match Act.run (access ref b) e with
      | (.error cause, e) => (.error cause, e)
      | (.ok es, e) =>
        (.ok (.done (Entries.value? es key)),
          report ref b (settle m ref ((b.loaded es).insert es key value) e).1
            (settle m ref ((b.loaded es).insert es key value) e).2) := by
  simp only [putInto, Act.run_bind, Act.run_get, hb, hpast, Bool.false_eq_true, if_false]
  rcases Act.run (access ref b) e with ⟨cause | es, e₁⟩
  · rfl
  · simp only [Act.run_modify]
    by_cases hover : ((b.loaded es).insert es key value).home.budget <
        ((b.loaded es).insert es key value).size
    · simp only [settle, if_pos hover, Act.run_bind, Act.run_modifyGet, Act.run_modify]
      rcases split m ref _ _ with ⟨_ | ⟨upperRef, upper⟩, e₂⟩
      · rfl
      · rfl
    · simp only [settle, if_neg hover, Act.run_bind, Act.run_modify]
      rfl

/-- A put that has to look again, since the key is past the block, changes nothing. -/
theorem putInto_cases (m : Nat) (ref : BlockRef) (key : K) (value : V) (e : Engine K V) :
    ((∀ b, e.blocks[ref]? = some b → e.isPast b key = true) ∧
      Act.run (putInto m ref key value) e = (.ok .again, e)) ∨
    ∃ b, e.blocks[ref]? = some b ∧ e.isPast b key = false := by
  cases hb : e.blocks[ref]? with
  | none =>
    refine Or.inl ⟨by simp, ?_⟩
    simp [putInto, Act.run_bind, hb]
  | some b =>
    cases hpast : e.isPast b key with
    | true =>
      refine Or.inl ⟨by simp [hpast], ?_⟩
      simp [putInto, Act.run_bind, hb, hpast]
    | false => exact Or.inr ⟨b, rfl, hpast⟩

/-- An attempt of a put is over at once and changes nothing, or it makes the first block of the map,
or it goes to the block that the directory names. -/
theorem putOnce_cases (m : Nat) (key : K) (value : V) (e : Engine K V) :
    (∃ r, Act.run (putOnce m key value) e = (r, e) ∧ r ≠ .ok .again ∧ r ≠ .error .stalled) ∨
    (∃ state, e.maps[m]? = some state ∧ state.directory.floor? key = none ∧
      Act.run (putOnce m key value) e = (.ok (.done none), plant m state key value e)) ∨
    ∃ state ref, e.maps[m]? = some state ∧ state.directory.floor? key = some ref ∧
      Act.run (putOnce m key value) e = Act.run (putInto m ref key value) e := by
  cases hm : e.maps[m]? with
  | none =>
    refine Or.inl ⟨.ok (.done none), ?_, by simp, by simp⟩
    simp [putOnce, Act.run_bind, hm]
  | some state =>
    by_cases hbig : state.home.budget < state.home.weight (key, value)
    · refine Or.inl ⟨.error (.entryTooLarge (state.home.weight (key, value)) state.home.budget), ?_,
        by simp, by simp⟩
      simp [putOnce, Act.run_bind, hm, hbig]
    · cases hfloor : state.directory.floor? key with
      | none =>
        refine Or.inr (Or.inl ⟨state, rfl, hfloor, ?_⟩)
        simp [putOnce, Act.run_bind, Act.run_map, hm, hbig, hfloor, Except.map]
      | some ref =>
        refine Or.inr (Or.inr ⟨state, ref, rfl, hfloor, ?_⟩)
        simp [putOnce, Act.run_bind, hm, hbig, hfloor]

/-! ### Changing the block -/

variable [Std.IsLinearOrder K] {es : Entries K V}

/-- A block that took an entry is put in its place. -/
theorem changes_grow (value : V) (hs : e.AllHold limit) (hm : e.maps[m]? = some state)
    (ht : e.layout m = pre ++ s :: post) (hreach : s.block.start.reaches key = true)
    (hpost : ∀ n ∈ post, n.block.start.reaches key = false) (hb : e.blocks[s.ref]? = some b)
    (hsb : s.block = b.settled es) :
    Changes limit m e (e.setBlock s.ref (b.insert es key value)) ∧
      (e.setBlock s.ref (b.insert es key value)).layout m =
        pre ++ ⟨s.ref, s.block.insert s.block.held key value⟩ :: post := by
  have hh : e.Holds m state (pre ++ s :: post) := ht ▸ hs.holds m state hm
  have hlt : s.ref < e.blocks.length := (List.getElem?_eq_some_iff.1 hb).1
  have hsorted : es.Sorted := by simpa [hsb] using (hh.tiled.blocks s (by simp)).sorted
  have hgrown : s.block.insert s.block.held key value =
      (b.insert es key value).settled (Entries.insert key value es) := by
    rw [hsb]
    rfl
  refine Changes.of_setBlock hs hm ht ?_ rfl rfl ?_
  · rw [hgrown]
    exact shows_of_dirty (by simp [setBlock, hlt]) rfl rfl hsorted.insert
  · exact hh.tiled.exchange ((hh.tiled.blocks s (by simp)).insert hreach) rfl rfl rfl
      (hh.tiled.lt_of_insert hpost)

omit [Sized K] [Sized V] in
/-- A block may be exchanged for two parts that are in memory, of which the upper one is new and is
listed in the directory. -/
theorem Changes.of_parts {lower upper : Block K V} {lastId : Nat} (hs : e.AllHold limit)
    (hm : e.maps[m]? = some state) (ht : e.layout m = pre ++ s :: post)
    (hlower : lower.entries = some lower.held) (hldirty : lower.dirty = true)
    (hlhome : lower.home = state.home) (hlstart : lower.start = s.block.start)
    (hupper : upper.entries = some upper.held) (hudirty : upper.dirty = true)
    (huhome : upper.home = state.home)
    (htiled : Layout.Tiled lastId (pre ++ ⟨s.ref, lower.settled lower.held⟩ ::
      ⟨e.blocks.length, upper.settled upper.held⟩ :: post))
    (hblocks : e'.blocks = e.blocks.set s.ref lower ++ [upper])
    (hmaps : e'.maps = e.maps.set m { state with
      directory := Directory.insert upper.start e.blocks.length state.directory, lastId })
    (hstores : e'.stores = e.stores) (hvolume : e'.volume = e.volume)
    (hevents : e.events <:+ e'.events) :
    Changes limit m e e' ∧ e'.layout m = pre ++ ⟨s.ref, lower.settled lower.held⟩ ::
      ⟨e.blocks.length, upper.settled upper.held⟩ :: post := by
  have hh : e.Holds m state (pre ++ s :: post) := ht ▸ hs.holds m state hm
  obtain ⟨hlt, -⟩ := List.getElem?_eq_some_iff.1 hm
  obtain ⟨hpre, hpost⟩ := hh.tiled.ref_ne
  have hhomes := hh.homes
  have hshown := hh.shows
  rw [List.forall_mem_append, List.forall_mem_cons] at hhomes hshown
  have hkept (y : Stretch K V) (hy : e.Shows y) (hne : y.ref ≠ s.ref) : e'.Shows y := by
    refine hy.of_frame ?_ hstores hvolume
    rw [hblocks, List.getElem?_append_left (by simpa using hy.lt_length),
      List.getElem?_set_ne hne.symm]
  have hsorted := htiled.blocks
  rw [List.forall_mem_append, List.forall_mem_cons, List.forall_mem_cons] at hsorted
  have hm' : e'.maps[m]? = some { state with
      directory := Directory.insert upper.start e.blocks.length state.directory, lastId } := by
    rw [hmaps, List.getElem?_set_self hlt]
  refine Changes.of_edit hs hm hm' (fun m' hne => by rw [hmaps, List.getElem?_set_ne hne.symm]) rfl
    hstores hvolume hevents (fun y hne hy => hkept y hy fun href => hne ?_)
    ⟨?_, ?_, ?_, hh.owner, hh.store, htiled⟩
  · rw [hy.home_eq hshown.2.1 href, hhomes.2.1, hh.owner]
  · have hfront : state.directory =
        (Layout.directory pre ++ [(s.block.start, s.ref)]) ++ Layout.directory post := by
      rw [hh.directory]
      simp
    have hascending := htiled.ascending
    have hsplit : Layout.directory (pre ++ ⟨s.ref, lower.settled lower.held⟩ ::
        ⟨e.blocks.length, upper.settled upper.held⟩ :: post) =
        (Layout.directory pre ++ [(s.block.start, s.ref)]) ++
          (upper.start, e.blocks.length) :: Layout.directory post := by
      have hstart : (lower.settled lower.held).start = s.block.start := hlstart
      simp only [Layout.directory_append, Layout.directory_cons, hstart, List.append_assoc,
        List.singleton_append]
      rfl
    rw [hsplit] at hascending ⊢
    rw [hfront]
    exact Directory.insert_eq hascending
  · rw [List.forall_mem_append, List.forall_mem_cons, List.forall_mem_cons]
    have hsref := hshown.2.1.lt_length
    refine ⟨fun y hy => hkept y (hshown.1 y hy) (hpre y hy), ?_, ?_,
      fun y hy => hkept y (hshown.2.2 y hy) (hpost y hy)⟩
    · refine shows_of_dirty ?_ hlower hldirty hsorted.2.1.sorted
      rw [hblocks, List.getElem?_append_left (by simpa using hsref), List.getElem?_set_self hsref]
    · refine shows_of_dirty ?_ hupper hudirty hsorted.2.2.1.sorted
      rw [hblocks, List.getElem?_append_right (by simp)]
      simp
  · rw [List.forall_mem_append, List.forall_mem_cons, List.forall_mem_cons]
    exact ⟨hhomes.1, hlhome, huhome, hhomes.2.2⟩

/-- A block that took an entry is put in its place, and is split if it outgrew its budget. -/
theorem changes_settle (value : V) (hs : e.AllHold limit) (hm : e.maps[m]? = some state)
    (ht : e.layout m = pre ++ s :: post) (hreach : s.block.start.reaches key = true)
    (hpost : ∀ n ∈ post, n.block.start.reaches key = false) (hb : e.blocks[s.ref]? = some b)
    (hsb : s.block = b.settled es) :
    Changes limit m e (settle m s.ref (b.insert es key value) e).2 ∧
      ∃ lastId, Layout.Put state.home e.blocks.length key value state.lastId (pre ++ s :: post)
        ((settle m s.ref (b.insert es key value) e).2.layout m) lastId := by
  have hgrown : s.block.insert s.block.held key value =
      (b.insert es key value).settled (Entries.insert key value es) := by
    rw [hsb]
    rfl
  -- where the entries were does not matter for the split
  have hsettled := Block.split?_settled (b := b.insert es key value) rfl (state.lastId + 1)
    e.blocks.length
  rw [← hgrown] at hsettled
  have hmap : (e.setBlock s.ref (b.insert es key value)).maps[m]? = some state := hm
  have hlength : (e.setBlock s.ref (b.insert es key value)).blocks.length = e.blocks.length :=
    List.length_set
  obtain ⟨hchanges, hlayout⟩ :=
    changes_grow value hs hm ht hreach hpost hb hsb
  unfold settle
  split
  · rename_i hover
    cases hsplit : (b.insert es key value).split? (state.lastId + 1) e.blocks.length with
    | none =>
      rw [hsplit, Option.map_none] at hsettled
      simp only [split, hmap, hlength, hsplit]
      refine ⟨hchanges, state.lastId, ?_⟩
      rw [hlayout]
      exact .grow hreach hpost rfl fun _ => hsettled
    | some parts =>
      obtain ⟨lower, upper⟩ := parts
      rw [hsplit, Option.map_some] at hsettled
      have hput : Layout.Put state.home e.blocks.length key value state.lastId (pre ++ s :: post)
          (pre ++ ⟨s.ref, lower.settled lower.held⟩ ::
            ⟨e.blocks.length, upper.settled upper.held⟩ :: post) (state.lastId + 1) :=
        .split hreach hpost rfl (by rw [hgrown]; exact hover) hsettled
      have hh : e.Holds m state (pre ++ s :: post) := ht ▸ hs.holds m state hm
      have htiled := hput.tiled hh.tiled fun x hx => Nat.ne_of_lt (hh.shows x hx).lt_length
      have hhome : b.home = state.home := by
        rw [← hh.homes s (by simp), hsb]
        rfl
      have hstart : b.start = s.block.start := by
        rw [hsb]
        rfl
      obtain ⟨hlower, hldirty, hlhome, hlstart, hupper, hudirty, huhome⟩ :=
        Block.split?_parts hsplit
      simp only [split, hmap, hlength, hsplit]
      refine And.imp_right (fun hlayout => ⟨state.lastId + 1, by rw [hlayout]; exact hput⟩)
        (Changes.of_parts hs hm ht hlower hldirty (hlhome.trans hhome) (hlstart.trans hstart) hupper
          hudirty (huhome.trans hhome) htiled ?_ rfl rfl rfl (List.suffix_cons _ _))
      simp [notify, record, setMap, addBlock, setBlock]
  · rename_i hfits
    refine ⟨hchanges, state.lastId, ?_⟩
    rw [hlayout]
    refine .grow hreach hpost rfl fun hover => absurd ?_ hfits
    rwa [hgrown] at hover

theorem changes_plant (value : V) (hs : e.AllHold limit) (hm : e.maps[m]? = some state)
    (hkey : ∀ s ∈ e.layout m, s.block.start.reaches key = false) :
    Changes limit m e
      ((e.addBlock (.ofEntry state.home key value (state.home.weight (key, value)))).setMap
        m { state with directory := Directory.insert .head e.blocks.length state.directory }) ∧
      ((e.addBlock (.ofEntry state.home key value (state.home.weight (key, value)))).setMap m
          { state with
            directory := Directory.insert .head e.blocks.length state.directory }).layout m =
        ⟨e.blocks.length, .ofEntry state.home key value (state.home.weight (key, value))⟩ ::
          e.layout m := by
  have hh := hs.holds m state hm
  obtain ⟨hlt, -⟩ := List.getElem?_eq_some_iff.1 hm
  set b : Block K V := .ofEntry state.home key value (state.home.weight (key, value)) with hb
  have htiled : Layout.Tiled state.lastId (⟨e.blocks.length, b⟩ :: e.layout m) :=
    hh.tiled.plant hkey (fun x hx => Nat.ne_of_lt (hh.shows x hx).lt_length) _
  have hkept (y : Stretch K V) (hy : e.Shows y) (state' : MapState K) :
      ((e.addBlock b).setMap m state').Shows y :=
    hy.of_frame (List.getElem?_append_left hy.lt_length) rfl rfl
  have hshows (state' : MapState K) : ((e.addBlock b).setMap m state').Shows ⟨e.blocks.length, b⟩ :=
    shows_of_dirty (b := b) (by simp [setMap, addBlock]) rfl rfl (List.pairwise_singleton ..)
  refine Changes.of_edit hs hm (List.getElem?_set_self hlt)
    (fun m' hne => List.getElem?_set_ne hne.symm) rfl rfl rfl (List.suffix_refl _)
    (fun y _ hy => hkept y hy _) ⟨?_, ?_, ?_, hh.owner, hh.store, htiled⟩
  · have hascending := htiled.ascending
    have hinsert : Directory.insert .head e.blocks.length ([] ++ (e.layout m).directory) =
        [] ++ (.head, e.blocks.length) :: (e.layout m).directory := Directory.insert_eq hascending
    exact (congrArg _ hh.directory).trans hinsert
  · rw [List.forall_mem_cons]
    exact ⟨hshows _, fun y hy => hkept y (hh.shows y hy) _⟩
  · rw [List.forall_mem_cons]
    exact ⟨rfl, hh.homes⟩

/-! ### Putting -/

variable [Lossless K] [Lossless V]

omit [Sized K] [Sized V] in
theorem keeps_report (limit : Option Nat) (ref : BlockRef) (b : Block K V)
    (product : Option (BlockRef × Block K V)) (e : Engine K V) :
    Keeps limit e (report ref b product e) := by
  unfold report
  split
  · exact (keeps_touch _ _).trans (keeps_addPage _ _)
  · exact keeps_touch _ _

/-- A put into the block that takes the key changes nothing if the block cannot be read. -/
theorem putInto_spec {r : Except MapError (Attempt V)} (hs : e.AllHold limit) (hw : e'.Within limit)
    (hm : e.maps[m]? = some state) (ht : e.layout m = pre ++ s :: post)
    (hreach : s.block.start.reaches key = true)
    (hpost : ∀ n ∈ post, n.block.start.reaches key = false)
    (h : Act.run (putInto m s.ref key value) e = (r, e')) :
    Changes limit m e e' ∧
      (r = .error (.storage (.io .injected)) ∧ e'.layout m = e.layout m ∧ e'.Unread e m ∨
        r = .ok (.done (Entries.value? (e.contents m) key)) ∧
          ∃ lastId, Layout.Put state.home e.blocks.length key value state.lastId (e.layout m)
            (e'.layout m) lastId) := by
  have hh : e.Holds m state (pre ++ s :: post) := ht ▸ hs.holds m state hm
  obtain ⟨b, hb, hcoh, hsb⟩ := hh.shows s (by simp)
  rw [run_putInto hb (isPast_eq_false hh hpost hsb)] at h
  rcases haccess : Act.run (access s.ref b) e with ⟨cause | es, e₁⟩ <;> rw [haccess] at h
  · obtain ⟨rfl, rfl⟩ := Prod.mk.inj h
    obtain ⟨hk, ⟨hr, hunread⟩ | ⟨hr, -⟩⟩ := access_of_mem hs hm (by simp [ht]) hb haccess
    · obtain rfl := Except.error.inj hr
      exact ⟨hk.changes hw hs m, Or.inl ⟨rfl, hk.layout hw hs m, hunread⟩⟩
    · simp at hr
  · obtain ⟨rfl, rfl⟩ := Prod.mk.inj h
    obtain ⟨hk, ⟨hr, -⟩ | ⟨hr, hloaded⟩⟩ := access_of_mem hs hm (by simp [ht]) hb haccess
    · simp at hr
    obtain rfl := Except.ok.inj hr
    have hreport := keeps_report limit s.ref b
      (settle m s.ref ((b.loaded s.block.held).insert s.block.held key value) e₁).1
      (settle m s.ref ((b.loaded s.block.held).insert s.block.held key value) e₁).2
    have hw₁ : e₁.Within limit :=
      hw.of_suffix ((suffix_settle m s.ref _ e₁).trans hreport.events)
    have hlayout := hk.layout hw₁ hs m
    have hsb' : s.block = (b.loaded s.block.held).settled s.block.held := by
      rw [hsb]
      rfl
    obtain ⟨hsettle, lastId, hput⟩ := changes_settle value (hk.allHold hw₁ hs)
      (hk.maps ▸ hm) (hlayout.trans ht) hreach hpost hloaded hsb'
    refine ⟨((hk.changes hw₁ hs m).trans hsettle).trans (hreport.changes hw hsettle.allHold m),
      Or.inr ⟨?_, lastId, ?_⟩⟩
    · rw [contents, ht, hh.tiled.value?_of_reaches hreach hpost]
    · rw [hreport.layout hw hsettle.allHold m, ht, ← hk.length]
      exact hput

/-- What comes of a put.  An entry that exceeds the budget is refused; a put that fails otherwise
has been refused the page of a block and changes no layout; and a put that succeeds gives the value
stored before. -/
theorem put_spec {r : Except MapError (Option V)} (hs : e.AllHold limit) (hw : e'.Within limit)
    (hm : e.maps[m]? = some state) (h : Act.run (put m key value) e = (r, e')) :
    Changes limit m e e' ∧
      (r = .error (.entryTooLarge (state.home.weight (key, value)) state.home.budget) ∧
          state.home.budget < state.home.weight (key, value) ∧ e' = e ∨
        state.home.weight (key, value) ≤ state.home.budget ∧
          (r = .error (.storage (.io .injected)) ∧ e'.layout m = e.layout m ∧ e'.Unread e m ∨
            r = .ok (Entries.value? (e.contents m) key) ∧
              ∃ lastId, Layout.Put state.home e.blocks.length key value state.lastId (e.layout m)
                (e'.layout m) lastId)) := by
  have hh := hs.holds m state hm
  simp only [put, putOnce, Act.run_bind, Act.run_get, hm] at h
  by_cases hbig : state.home.budget < state.home.weight (key, value)
  · rw [if_pos hbig] at h
    obtain ⟨rfl, rfl⟩ := Prod.mk.inj h
    exact ⟨(Keeps.refl limit _).changes hw hs m, Or.inl ⟨rfl, hbig, rfl⟩⟩
  rw [if_neg hbig] at h
  -- an entry within the budget goes to the block that the directory names, or plants the first one
  suffices hspec : Changes limit m e e' ∧
      (r = .error (.storage (.io .injected)) ∧ e'.layout m = e.layout m ∧ e'.Unread e m ∨
        r = .ok (Entries.value? (e.contents m) key) ∧
          ∃ lastId, Layout.Put state.home e.blocks.length key value state.lastId (e.layout m)
            (e'.layout m) lastId) from
    ⟨hspec.1, Or.inr ⟨Nat.le_of_not_lt hbig, hspec.2⟩⟩
  cases hfloor : state.directory.floor? key with
  | some ref =>
    obtain ⟨front, start, back, hdirectory, hreach, hback⟩ := Directory.floor?_eq_some hfloor
    obtain ⟨pre, s, post, ht, -, hpost, rfl, rfl⟩ :=
      Layout.exists_of_directory_eq (hh.directory ▸ hdirectory)
    have hpost' : ∀ n ∈ post, n.block.start.reaches key = false := fun n hn =>
      hback (n.block.start, n.ref) (hpost ▸ List.mem_map_of_mem hn)
    simp only [hfloor] at h
    rcases hinto : Act.run (putInto m s.ref key value) e with ⟨cause | attempt, e₁⟩ <;>
      simp only [hinto] at h
    · obtain ⟨rfl, rfl⟩ := Prod.mk.inj h
      obtain ⟨hchanges, ⟨hr, hlayout⟩ | ⟨hr, -⟩⟩ :=
        putInto_spec hs hw hm ht hreach hpost' hinto
      · obtain rfl := Except.error.inj hr
        exact ⟨hchanges, Or.inl ⟨rfl, hlayout⟩⟩
      · simp at hr
    · have he : e₁ = e' := by
        cases attempt <;> exact (Prod.mk.inj h).2
      subst he
      obtain ⟨hchanges, ⟨hr, -⟩ | ⟨hr, hput⟩⟩ :=
        putInto_spec hs hw hm ht hreach hpost' hinto
      · simp at hr
      · obtain rfl := Except.ok.inj hr
        obtain ⟨rfl, -⟩ := Prod.mk.inj h
        exact ⟨hchanges, Or.inr ⟨rfl, hput⟩⟩
  | none =>
    simp only [hfloor, Act.run_bind, Act.run_modify, Act.run_pure] at h
    obtain ⟨rfl, rfl⟩ := Prod.mk.inj h
    have hkey : ∀ s ∈ e.layout m, s.block.start.reaches key = false := fun s hs =>
      Directory.floor?_eq_none hfloor (s.block.start, s.ref)
        (hh.directory ▸ List.mem_map_of_mem hs)
    obtain ⟨hplant, hlayout⟩ := changes_plant value hs hm hkey
    have hadd : Keeps limit _ (plant m state key value e) := keeps_addPage _ _
    refine ⟨hplant.trans (hadd.changes hw hplant.allHold m), Or.inr ⟨?_, state.lastId, ?_⟩⟩
    · rw [contents, hh.tiled.value?_eq_none hkey]
    · rw [(hadd.layout hw hplant.allHold m).trans hlayout]
      exact .plant hkey

end Engine

end PagedMap
