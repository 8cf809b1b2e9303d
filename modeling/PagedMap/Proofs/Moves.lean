import Mathlib
import PagedMap.Proofs.Serve
import PagedMap.Proofs.Steps

/-!
# What requests are made of, and what they do to entries

A request is carried out in moves (`Engine.Move`): a block is read, changed in memory, split or
written to a page, its entries leave memory, a policy is replaced by what it has become, something
is recorded.  Each move has its deeds (`Deed`): the blocks whose entries it changes, and the block
that it asks a page store to write.  A page that is created is put down to the block that is written
then (`Engine.writes`).

Whatever is requested, unless a map is made or gives up its blocks, is a sequence of such moves,
whether it succeeds or fails (`Engine.led_serve`).  Only a put inserts an entry, the one that is
put, and only a removal that comes to an entry of its key erases one (`Engine.editOf`).
-/

namespace PagedMap

variable {K V : Type}

/-- Something that is done with the entries of a block. -/
inductive Deed (K V : Type) where
  /-- The block has these entries from then on: it took an entry or lost one, it was split, or it is
  new. -/
  | change (ref : BlockRef) (entries : Entries K V)
  /-- A page store is asked to write these entries of the block as a page, and does it or fails. -/
  | write (ref : BlockRef) (entries : Entries K V) (done : Bool)

/-- The entries that a page store is asked to write, and whether it does. -/
def Deed.order? : Deed K V → Option (List (K × V) × Bool)
  | change .. => none
  | write _ entries done => some (entries, done)

/-- The entries that a page store was asked to write, and whether it did. -/
def Event.order? : Event K V → Option (List (K × V) × Bool)
  | .pageCreated _ entries result => some (entries, result.isOk)
  | .pageLoaded .. | .reported .. | .noticed _ => none

/-- What a request does to the entries of blocks, wherever these are. -/
inductive Edit (K V : Type) where
  | keep
  | erase (key : K)
  | insert (key : K) (value : V)

/-- What a request may do to the entries of blocks. -/
def Request.edit : Request K V → Edit K V
  | put _ key value => .insert key value
  | remove _ key => .erase key
  | _ => .keep

/-- Whether a request neither makes a map nor makes one give up its blocks. -/
def Request.staysIn : Request K V → Bool
  | make .. | clear _ | drop _ => false
  | _ => true

namespace Engine

/-- The pages that page stores were asked to write, the latest first. -/
def orders (e : Engine K V) : List (List (K × V) × Bool) := e.events.filterMap Event.order?

/-- What page stores were asked to write on the way from one engine to another, put down to a
block. -/
def writes (ref : BlockRef) (e e' : Engine K V) : List (Deed K V) :=
  ((e'.events.take (e'.events.length - e.events.length)).filterMap Event.order?).map
    fun order => .write ref order.1 order.2

variable [Wire K] [Wire V] [LE K] [DecidableLE K] [Sized K] [Sized V]

/-- Whether a removal comes to an entry of the key in one of these blocks, before it fails or
ends. -/
def finds (key : K) : List BlockRef → Engine K V → Bool
  | [], _ => false
  | ref :: refs, e =>
    match Act.run (removeFrom key ref) e with
    | (.ok none, e) => finds key refs e
    | (.ok (some _), _) => true
    | (.error _, _) => false

/-- Whether a removal from a map comes to an entry of the key, before it fails or ends. -/
def meets (e : Engine K V) (m : Nat) (key : K) : Bool :=
  match e.maps[m]? with
  | some state => finds key (e.removalGroups key [] state.directory.refs).flatten e
  | none => false

/-- What a request does to the entries of blocks: a removal that comes to no entry of its key does
nothing. -/
def editOf (e : Engine K V) : Request K V → Edit K V
  | .remove m key => if e.meets m key then .erase key else .keep
  | q => q.edit

/-- One thing that is done on the way of a request, with its deeds, the latest first. -/
inductive Move (k : Edit K V) (e : Engine K V) : List (Deed K V) → Engine K V → Prop
  | read {ref : BlockRef} {b : Block K V} {r : Except MapError (Entries K V)} {e' : Engine K V}
      (hb : e.blocks[ref]? = some b) (h : Act.run (access ref b) e = (r, e')) : Move k e [] e'
  | persist {ref : BlockRef} {r : Except MapError Unit} {e' : Engine K V}
      (h : Act.run (persist ref) e = (r, e')) : Move k e (writes ref e e') e'
  | unload {ref : BlockRef} {page : Nat} {r : Except MapError Bool} {e' : Engine K V}
      (h : Act.run (unload ref page) e = (r, e')) : Move k e (writes ref e e') e'
  | record (event : Event K V) (h : event.order? = none) : Move k e [] (e.record event)
  | policy (policy : Nat) (p : Policy BlockRef) : Move k e [] (e.setPolicy policy p)
  | look (scans : List (Scan K V)) : Move k e [] { e with scans }
  | plan (faults : Faults) : Move k e [] (e.plan 0 faults)
  | erase {ref : BlockRef} {b : Block K V} {es : Entries K V} {key : K} (hk : k = .erase key)
      (hb : e.blocks[ref]? = some b) (hes : b.entries = some es)
      (hfound : (es.value? key).isSome = true) :
      Move k e [.change ref (Entries.erase es key)] (e.setBlock ref (b.erase es key))
  | insert {ref : BlockRef} {b : Block K V} {es : Entries K V} {key : K} {value : V}
      (hk : k = .insert key value) (hb : e.blocks[ref]? = some b) (hes : b.entries = some es) :
      Move k e [.change ref (Entries.insert key value es)] (e.setBlock ref (b.insert es key value))
  | split {m : Nat} {ref : BlockRef} {b lower upper : Block K V} {state : MapState K}
      {key : K} {value : V} (hk : k = .insert key value) (hl : e.Lists m ref b)
      (hdirty : b.dirty = true) (hm : e.maps[m]? = some state)
      (hsplit : b.split? (state.lastId + 1) e.blocks.length = some (lower, upper)) :
      Move k e [.change e.blocks.length upper.held, .change ref lower.held] (split m ref b e).2
  | plant {m : Nat} {state : MapState K} {key : K} {value : V} (hk : k = .insert key value)
      (hm : e.maps[m]? = some state) :
      Move k e [.change e.blocks.length [(key, value)]] (e.enlist m state
        (.ofEntry state.home key value (state.home.weight (key, value))) state.lastId)

/-- Moves that are made one after the other, with all their deeds, the latest first. -/
inductive Moves (k : Edit K V) : Engine K V → List (Deed K V) → Engine K V → Prop
  | refl (e : Engine K V) : Moves k e [] e
  | head {e e' e'' : Engine K V} {ds ds' : List (Deed K V)} (h : Move k e ds e')
      (hs : Moves k e' ds' e'') : Moves k e (ds' ++ ds) e''

/-- Moves lead from one engine to the other. -/
def Led (k : Edit K V) (e e' : Engine K V) : Prop := ∃ ds, Moves k e ds e'

variable {k : Edit K V} {e e' e'' : Engine K V} {m : Nat} {ref : BlockRef} {b : Block K V}
  {ds ds' : List (Deed K V)}

theorem Moves.trans (h : Moves k e ds e') (h' : Moves k e' ds' e'') :
    Moves k e (ds' ++ ds) e'' := by
  induction h with
  | refl e => rwa [List.append_nil]
  | head hmove _ ih =>
    rw [← List.append_assoc]
    exact .head hmove (ih h')

theorem Led.refl (k : Edit K V) (e : Engine K V) : Led k e e := ⟨[], .refl e⟩

theorem Led.trans (h : Led k e e') (h' : Led k e' e'') : Led k e e'' := by
  obtain ⟨ds, hds⟩ := h
  obtain ⟨ds', hds'⟩ := h'
  exact ⟨ds' ++ ds, hds.trans hds'⟩

theorem Move.led (h : Move k e ds e') : Led k e e' := ⟨[] ++ ds, .head h (.refl e')⟩

theorem Led.tail (h : Led k e e') (h' : Move k e' ds e'') : Led k e e'' := h.trans h'.led

instance : Std.Refl (Led k) := ⟨.refl k⟩

instance : IsTrans (Engine K V) (Led k) := ⟨fun _ _ _ => .trans⟩

/-! ### Policies -/

theorem led_notify (notice : Notice) (e : Engine K V) : Led k e (e.notify notice) :=
  Move.led (.record _ rfl)

theorem led_hitPage (policy : Nat) (page : Page BlockRef) (e : Engine K V) :
    Led k e (e.hitPage policy page) := by
  have hrecord : Led k e (e.record (.reported .hit policy page)) := Move.led (.record _ rfl)
  dsimp only [hitPage]
  split
  · exact hrecord
  · exact hrecord.tail (.policy _ _)

theorem led_removePage (policy : Nat) (page : Page BlockRef) (e : Engine K V) :
    Led k e (e.removePage policy page) := by
  have hrecord : Led k e (e.record (.reported .remove policy page)) := Move.led (.record _ rfl)
  dsimp only [removePage]
  split
  · exact hrecord
  · exact hrecord.tail (.policy _ _)

theorem led_evict (page : Page BlockRef) (e : Engine K V) : Led k e (e.evict page) := by
  unfold evict
  split
  · have hunload : Led k e (Act.run (Engine.unload page.owner page.key.pageId) e).2 :=
      Move.led (.unload rfl)
    exact hunload.trans (led_notify _ _)
  · exact .refl k e

theorem led_addPage (policy : Nat) (page : Page BlockRef) (e : Engine K V) :
    Led k e (e.addPage policy page) := by
  have hrecord : Led k e (e.record (.reported .add policy page)) := Move.led (.record _ rfl)
  dsimp only [addPage]
  split
  · exact hrecord
  · split
    · exact (hrecord.tail (.policy _ _)).trans (led_evict _ _)
    · exact hrecord.tail (.policy _ _)

theorem led_touch (ref : BlockRef) (b : Block K V) (e : Engine K V) : Led k e (e.touch ref b) := by
  unfold touch
  split
  · exact led_hitPage _ _ _
  · exact led_addPage _ _ _

/-! ### Reading -/

theorem led_valuesIn (ref : BlockRef) (first last : Option K) :
    Act.Along (Led k) (valuesIn ref first last : Act K V (List V × Option BlockRef)) := by
  intro e
  rcases h : Act.run (valuesIn ref first last) e with ⟨r, e'⟩
  rcases valuesIn_cases h with ⟨-, -, rfl⟩ |
    ⟨b, hb, ⟨-, -, rfl⟩ | ⟨-, ⟨cause, haccess, -⟩ | ⟨es, e₁, haccess, -, rfl⟩⟩⟩
  · exact .refl k _
  · exact .refl k _
  · exact Move.led (.read hb haccess)
  · have hread : Led k e e₁ := Move.led (.read hb haccess)
    exact hread.trans (led_touch ref b e₁)

theorem led_nextWithin {keep : Scan K V → Engine K V → Engine K V}
    (hkeep : ∀ s e, Led k e (keep s e)) (fuel : Nat) (s : Scan K V) (e : Engine K V) :
    Led k e (nextWithin keep fuel s e).2.2 :=
  nextWithin_induct (.refl k) (fun _ _ _ => .trans) hkeep
    (fun ref first last => led_valuesIn ref first last) fuel s e

theorem led_next (n : Nat) (e : Engine K V) : Led k e (e.next n).2 := by
  unfold next
  split
  · exact .refl k e
  · rename_i s hs
    exact (led_nextWithin (fun _ _ => Move.led (.look _)) e.blocks.length s e).tail (.look _)

theorem led_get? (m : Nat) (key : K) : Act.Along (Led k) (get? m key : Act K V (Option V)) := by
  intro e
  simp only [get?, Act.run_bind, Act.run_get]
  split
  · exact .refl k e
  · rename_i s hscan
    have hnext : Led k e (nextWithin (fun _ e => e) e.blocks.length s e).2.2 :=
      led_nextWithin (fun _ e => .refl k e) _ _ _
    rcases hrun : nextWithin (fun _ e => e) e.blocks.length s e with ⟨value, s', e₁⟩
    rw [hrun] at hnext
    simp only [Act.run_bind, Act.run_set]
    split <;> exact hnext

theorem led_contains (m : Nat) (key : K) : Act.Along (Led k) (contains m key : Act K V Bool) :=
  (led_get? m key).bind fun _ => Act.along_pure _

theorem led_valuesWithin (fuel : Nat) (s : Scan K V) : Act.Along (Led k) (valuesWithin fuel s) := by
  induction fuel generalizing s with
  | zero => exact Act.along_pure _
  | succ fuel ih =>
    refine Act.along_get.bind fun e => ?_
    split
    · exact Act.along_pure _
    · exact (led_valuesIn _ _ _).bind fun _ => Act.along_get.bind fun _ =>
        (ih _).bind fun _ => Act.along_pure _

theorem led_valuesBetween (m : Nat) (first last : Option K) :
    Act.Along (Led k) (valuesBetween m first last : Act K V (List V)) := by
  refine Act.along_get.bind fun e => ?_
  split
  · exact led_valuesWithin _ _
  · exact Act.along_throw _

/-! ### Snapshots -/

theorem led_snapshot (m : Nat) : Act.Along (Led k) (snapshot m : Act K V (Snapshot K)) := by
  have hblock (ref : BlockRef) :
      Act.Along (Led k) (snapshotBlock ref : Act K V (Option (BlockInfo K))) := by
    have hpersist : Act.Along (Led k) (Engine.persist ref : Act K V Unit) :=
      fun e => Move.led (.persist rfl)
    refine hpersist.bind fun _ => Act.along_get.bind fun e => ?_
    split
    · split
      · exact Act.along_pure _
      · exact Act.Along.bind (fun e => led_notify _ e) fun _ => Act.along_pure _
    · exact Act.along_pure _
  refine Act.along_get.bind fun e => ?_
  split
  · exact (Act.along_mapM hblock _).bind fun _ => Act.along_pure _
  · exact Act.along_pure _

/-! ### Removing -/

theorem led_removeFrom {key : K} (e : Engine K V)
    (hk : ∀ value, (Act.run (removeFrom key ref) e).1 = .ok (some value) → k = .erase key) :
    Led k e (Act.run (removeFrom key ref) e).2 := by
  rcases h : Act.run (removeFrom key ref) e with ⟨r, e'⟩
  rw [h] at hk
  rcases removeFrom_cases h with ⟨-, -, rfl⟩ |
    ⟨b, hb, ⟨-, -, rfl⟩ | ⟨-, ⟨cause, haccess, -⟩ | ⟨es, e₁, haccess, rfl, rfl⟩⟩⟩
  · exact .refl k _
  · exact .refl k _
  · exact Move.led (.read hb haccess)
  · have hread : Led k e e₁ := Move.led (.read hb haccess)
    have hloaded := (quiet_access hb haccess).2
    refine Led.trans ?_ (led_touch ref b _)
    cases hvalue : Entries.value? es key with
    | none =>
      have hsame : (b.loaded es).erase es key = b.loaded es := by rw [Block.erase, hvalue]
      rw [hsame]
      exact (setBlock_self hloaded).symm ▸ hread
    | some value =>
      exact hread.tail
        (.erase (hk value (congrArg Except.ok hvalue)) hloaded rfl (by simp [hvalue]))

/-- A removal that goes through the blocks of a group, and comes to an entry of the key there or
afterwards only if it may. -/
theorem led_removeFromGroup {key : K} {group rest : List BlockRef} {found : Option V}
    (hk : finds key (group ++ rest) e = true → k = .erase key) {r : Except MapError (Option V)}
    (h : Act.run (group.foldlM (fun found ref => return found <|> (← removeFrom key ref)) found) e =
      (r, e')) :
    Led k e e' ∧ (r.isOk = true → finds key rest e' = true → k = .erase key) := by
  induction group generalizing e found with
  | nil =>
    obtain ⟨-, rfl⟩ := Prod.mk.inj h
    exact ⟨.refl k _, fun _ => hk⟩
  | cons ref group ih =>
    rw [List.foldlM_cons, Act.run_bind, Act.run_bind] at h
    simp only [List.cons_append, finds] at hk
    have hfirst : Led k e (Act.run (removeFrom key ref) e).2 :=
      led_removeFrom e fun value hvalue => hk (by
        rw [← Prod.mk.eta (p := Act.run (removeFrom key ref) e), hvalue])
    rcases hrun : Act.run (removeFrom key ref) e with ⟨cause | value, e₁⟩ <;>
      rw [hrun] at h hk hfirst
    · obtain ⟨rfl, rfl⟩ := Prod.mk.inj h
      exact ⟨hfirst, fun hok => by simp [Except.isOk, Except.toBool] at hok⟩
    · have hrest : finds key (group ++ rest) e₁ = true → k = .erase key := by
        cases value with
        | none => exact hk
        | some value => exact fun _ => hk rfl
      obtain ⟨hled, hafter⟩ := ih hrest h
      exact ⟨hfirst.trans hled, hafter⟩

/-- A removal erases entries only if it comes to one of the key. -/
theorem led_remove {key : K} (hk : e.meets m key = true → k = .erase key) :
    Led k e (Act.run (remove m key) e).2 := by
  have hgroups (groups : List (List BlockRef)) (found : Option V) (e : Engine K V)
      (hk : finds key groups.flatten e = true → k = .erase key) :
      Led k e (Act.run (groups.foldlM
        (fun found group => return (← removeFromGroup key group) <|> found) found) e).2 := by
    induction groups generalizing e found with
    | nil => exact .refl k e
    | cons group groups ih =>
      rw [List.foldlM_cons, Act.run_bind, Act.run_bind]
      rcases hrun : Act.run (removeFromGroup key group) e with ⟨cause | value, e₁⟩
      · exact (led_removeFromGroup hk hrun).1
      · obtain ⟨hled, hafter⟩ := led_removeFromGroup hk hrun
        exact hled.trans (ih _ e₁ (hafter rfl))
  simp only [remove, Act.run_bind, Act.run_get]
  split
  · rename_i state hm
    refine hgroups _ _ e fun hfinds => hk ?_
    simp only [meets, hm, hfinds]
  · exact .refl k e

/-! ### Putting -/

theorem led_report (ref : BlockRef) (b : Block K V) (product : Option (BlockRef × Block K V))
    (e : Engine K V) : Led k e (report ref b product e) := by
  unfold report
  split
  · exact (led_touch _ _ _).trans (led_addPage _ _ _)
  · exact led_touch _ _ _

theorem led_split {key : K} {value : V} (hl : e.Lists m ref b) (hdirty : b.dirty = true) :
    Led (.insert key value) e (split m ref b e).2 := by
  obtain ⟨state, hm, -, -⟩ := id hl
  cases hsplit : b.split? (state.lastId + 1) e.blocks.length with
  | none =>
    have hsame : (split m ref b e).2 = e := by simp [Engine.split, hm, hsplit]
    exact hsame.symm ▸ .refl _ e
  | some parts => exact Move.led (.split rfl hl hdirty hm hsplit)

theorem led_putInto {state : MapState K} (hm : e.maps[m]? = some state)
    (href : ref ∈ state.directory.refs) (key : K) (value : V) :
    Led (.insert key value) e (Act.run (putInto m ref key value) e).2 := by
  rcases putInto_cases m ref key value e with ⟨-, hrun⟩ | ⟨b, hb, hpast⟩
  · exact hrun ▸ .refl _ e
  rw [run_putInto hb hpast]
  rcases haccess : Act.run (access ref b) e with ⟨cause | es, e₁⟩
  · exact Move.led (.read hb haccess)
  · have hread : Led (.insert key value) e e₁ := Move.led (.read hb haccess)
    obtain ⟨hquiet, hloaded⟩ := quiet_access hb haccess
    have hinsert := hread.tail (.insert rfl hloaded rfl)
    refine Led.trans ?_ (led_report _ _ _ _)
    unfold settle
    split
    · refine hinsert.trans (led_split ⟨state, hquiet.maps.symm ▸ hm, href, ?_⟩ rfl)
      exact List.getElem?_set_self (List.getElem?_eq_some_iff.1 hloaded).1
    · exact hinsert

theorem led_put (m : Nat) (key : K) (value : V) :
    Act.Along (Led (.insert key value)) (put m key value : Act K V (Option V)) := by
  intro e
  rw [snd_run_put]
  rcases putOnce_cases m key value e with ⟨r, hrun, -⟩ | ⟨state, hm, -, hrun⟩ |
    ⟨state, ref, hm, hfloor, hrun⟩
  · exact hrun ▸ .refl _ e
  · have hplant : Led (.insert key value) e _ := Move.led (.plant rfl hm)
    exact hrun ▸ hplant.trans (led_addPage _ _ _)
  · exact hrun ▸ led_putInto hm (Directory.floor?_mem_refs hfloor) key value

/-! ### Requests -/

/-- A request does to entries what it may do to them, or nothing. -/
theorem editOf_cases (q : Request K V) (e : Engine K V) :
    e.editOf q = .keep ∨ e.editOf q = q.edit := by
  unfold editOf
  split
  · split
    · exact Or.inr rfl
    · exact Or.inl rfl
  · exact Or.inr rfl

theorem led_perform {q : Request K V} (hq : q.staysIn = true) (e : Engine K V)
    (hk : e.editOf q = .keep ∨ e.editOf q = k) : Led k e (e.perform q).2 := by
  cases q with
  | make => simp [Request.staysIn] at hq
  | clear => simp [Request.staysIn] at hq
  | drop => simp [Request.staysIn] at hq
  | put m key value =>
    have hinsert : Edit.insert key value = k := hk.resolve_left (by simp [editOf, Request.edit])
    exact hinsert ▸ led_put m key value e
  | remove m key => exact led_remove fun hmeets => by simpa [editOf, hmeets, eq_comm] using hk
  | get m key => exact led_get? m key e
  | search m key => exact led_valuesBetween m (some key) (some key) e
  | contains m key => exact led_contains m key e
  | range m first last => exact led_valuesBetween m first last e
  | checkpoint m => exact led_snapshot m e
  | openScan m first last =>
    simp only [perform, openScan]
    rcases scan m first last e with cause | s
    · exact .refl k e
    · exact Move.led (.look _)
  | next n =>
    have hnext : Led k e (e.next n).2 := led_next n e
    simp only [perform]
    rcases hrun : e.next n with ⟨_ | _ | _, e₁⟩ <;> rw [hrun] at hnext <;> exact hnext
  | closeScan n => exact Move.led (.look _)
  | evict page => exact led_evict page e
  | report report policy page =>
    cases report with
    | add => exact led_addPage policy page e
    | hit => exact led_hitPage policy page e
    | remove => exact led_removePage policy page e
  | plan faults => exact Move.led (.plan faults)

/-- Whatever comes of a request, it is made of moves, unless it makes a map or makes one give up its
blocks. -/
theorem led_serve {q : Request K V} (hq : q.staysIn = true) (e : Engine K V)
    (hk : e.editOf q = .keep ∨ e.editOf q = k) : Led k e (e.serve q).2 := by
  unfold serve
  split
  · exact led_perform hq e hk
  · exact .refl k e

end Engine

end PagedMap
