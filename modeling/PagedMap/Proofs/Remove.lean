import Mathlib
import PagedMap.Engine.Edit
import PagedMap.Proofs.Change
import PagedMap.Proofs.Standing

/-!
# Removing an entry

At most one block of a map covers a key, so a removal comes down to that block: the groups that it
goes through are none or one, and of the group only the first block covers the key
(`Engine.removalGroups_of_covers`).  A removal that cannot read the block changes no layout; any
other one changes the layout by `Block.erase` at that block and gives the value that was stored
(`Engine.remove_spec`).
-/

namespace PagedMap.Engine

variable {K V : Type} [LE K] [DecidableLE K] [Wire K] [Wire V]

variable {e e' : Engine K V} {m : Nat} {state : MapState K} {s : Stretch K V}
  {t pre post : Layout K V} {limit : Option Nat} {ref : BlockRef} {b : Block K V} {key : K}

/-! ### The blocks of a removal -/

theorem Shows.exists_covers (h : e.Shows s) (key : K) : ∃ b, e.blocks[s.ref]? = some b ∧
    b.covers key = s.block.covers key := by
  obtain ⟨b, hb, -, hs⟩ := h
  rw [hs]
  exact ⟨b, hb, rfl⟩

/-- The chain from the first of some blocks leads through these blocks. -/
theorem mem_chain {fuel : Nat} {visited : List Nat} {next : Option BlockRef} (hlinked : t.Linked)
    (hshows : ∀ x ∈ t, e.Shows x) (hnext : ∀ r ∈ next, ∃ n ∈ t.head?, n.ref = r) :
    ∀ r ∈ (e.chain fuel visited next).1, ∃ x ∈ t, x.ref = r := by
  induction fuel generalizing t visited next with
  | zero => simp [chain]
  | succ fuel ih =>
    cases next with
    | none => simp [chain]
    | some r =>
      obtain ⟨n, hn, rfl⟩ := hnext r rfl
      obtain ⟨t, rfl⟩ := List.head?_eq_some_iff.1 hn
      obtain ⟨b, hb, -, hs⟩ := hshows n (by simp)
      have hb' : b.next = n.block.next := by rw [hs]; rfl
      have htail : ∀ r ∈ (e.chain fuel (b.id :: visited) b.next).1, ∃ x ∈ t, x.ref = r :=
        ih hlinked.2 (fun x hx => hshows x (by simp [hx])) (hb' ▸ hlinked.1)
      simp only [chain, hb]
      split
      · simp
      · intro r hr
        rcases List.mem_cons.1 hr with rfl | hr
        · exact ⟨n, by simp, rfl⟩
        · obtain ⟨x, hx, href⟩ := htail r hr
          exact ⟨x, by simp [hx], href⟩

/-- Blocks that do not cover the key are passed over. -/
theorem removalGroups_of_not_covers {visited : List Nat} (refs : List BlockRef)
    (h : ∀ x ∈ t, e.Shows x ∧ x.block.covers key = false) :
    e.removalGroups key visited (t.map (·.ref) ++ refs) = e.removalGroups key visited refs := by
  induction t with
  | nil => rfl
  | cons x t ih =>
    obtain ⟨hshows, hcovers⟩ := h x (by simp)
    obtain ⟨b, hb, hsame⟩ := hshows.exists_covers key
    have hnot : b.id ∈ visited ∨ ¬ b.covers key := Or.inr (by simp [hsame, hcovers])
    simp only [List.map_cons, List.cons_append, removalGroups, hb, if_pos hnot]
    exact ih fun y hy => h y (by simp [hy])

/-- The groups of a removal are the one that starts at the block that covers the key. -/
theorem removalGroups_of_covers [Std.IsLinearOrder K] (hh : e.Holds m state (pre ++ s :: post))
    (hs : s.block.covers key = true) :
    ∃ rest, e.removalGroups key [] state.directory.refs = [s.ref :: rest] ∧
      ∀ r ∈ rest, ∃ x ∈ post, x.ref = r := by
  obtain ⟨hpre, hpost⟩ := hh.tiled.not_covers hs
  have hshows := hh.shows
  rw [List.forall_mem_append, List.forall_mem_cons] at hshows
  have hrefs : state.directory.refs = pre.map (·.ref) ++ s.ref :: (post.map (·.ref) ++ []) := by
    rw [hh.directory, Layout.refs_directory, List.map_append, List.map_cons, List.append_nil]
  obtain ⟨b, hb, -, hsb⟩ := hshows.2.1
  have hnot : ¬ (b.id ∈ ([] : List Nat) ∨ ¬ b.covers key) := by
    have hcovers : b.covers key = true := by rw [← hs, hsb]; rfl
    simp [hcovers]
  obtain ⟨fuel, hfuel⟩ := Nat.exists_eq_succ_of_ne_zero
    (Nat.ne_of_gt (Nat.lt_of_le_of_lt (Nat.zero_le _) hshows.2.1.lt_length))
  have hb' : b.next = s.block.next := by rw [hsb]; rfl
  refine ⟨(e.chain fuel [b.id] b.next).1, ?_,
    mem_chain hh.tiled.linked.right.2 hshows.2.2 (hb' ▸ hh.tiled.linked.right.1)⟩
  rw [hrefs, removalGroups_of_not_covers _ fun x hx => ⟨hshows.1 x hx, hpre x hx⟩]
  simp only [removalGroups, hb, if_neg hnot]
  rw [removalGroups_of_not_covers _ fun x hx => ⟨hshows.2.2 x hx, hpost x hx⟩, hfuel]
  simp [chain, hb, removalGroups]

/-! ### Removing from one block -/

variable [Sized K] [Sized V]

omit [Wire K] [Wire V] in
/-- Removing an entry does not depend on where the entries were. -/
theorem settled_erase (b : Block K V) (es : Entries K V) (key : K) :
    ((b.loaded es).erase es key).settled (Entries.erase es key) = (b.settled es).erase es key := by
  unfold Block.erase
  cases hval : Entries.value? es key with
  | some value => rfl
  | none =>
    rw [Entries.erase_of_value?_eq_none hval]
    rfl

/-- A block that does not cover the key is not read. -/
theorem removeFrom_of_not_covers (hb : e.blocks[ref]? = some b) (h : b.covers key = false) :
    Act.run (removeFrom key ref) e = (.ok none, e) := by
  simp [removeFrom, Act.run_bind, hb, h]

theorem changes_erase (hs : e.AllHold limit) (hm : e.maps[m]? = some state)
    (ht : e.layout m = pre ++ s :: post) (hb : e.blocks[s.ref]? = some (b.loaded s.block.held))
    (hsb : s.block = b.settled s.block.held) :
    Changes limit m e (e.setBlock s.ref ((b.loaded s.block.held).erase s.block.held key)) ∧
      (e.setBlock s.ref ((b.loaded s.block.held).erase s.block.held key)).layout m =
        pre ++ ⟨s.ref, s.block.erase s.block.held key⟩ :: post := by
  have hh : e.Holds m state (pre ++ s :: post) := ht ▸ hs.holds m state hm
  have hlt : s.ref < e.blocks.length := (List.getElem?_eq_some_iff.1 hb).1
  have hsettled := settled_erase b s.block.held key
  rw [← hsb] at hsettled
  obtain ⟨hstart, -⟩ := Layout.erase_frame s.block s.block.held key
  refine Changes.of_setBlock hs hm ht ?_ ?_ hstart hh.tiled.erase
  · cases hval : Entries.value? s.block.held key with
    | some value =>
      rw [← hsettled]
      refine shows_of_dirty (by simp [setBlock, hlt]) ?_ ?_
        (hh.tiled.blocks s (by simp)).sorted.erase
      · simp [Block.erase, hval]
      · simp [Block.erase, hval]
    | none =>
      have hsame : ∀ x : Block K V, x.erase s.block.held key = x := fun x => by
        simp [Block.erase, hval]
      rw [hsame, hsame]
      refine (hh.shows s (by simp)).of_frame ?_ rfl rfl
      rw [hb]
      simp [setBlock, hlt]
  · unfold Block.erase
    split <;> rfl

variable [Std.IsLinearOrder K] [Lossless K] [Lossless V]

/-- Removing from the block that covers the key changes nothing if the block cannot be read. -/
theorem removeFrom_of_covers {r : Except MapError (Option V)} (hs : e.AllHold limit)
    (hw : e'.Within limit) (hm : e.maps[m]? = some state) (ht : e.layout m = pre ++ s :: post)
    (hc : s.block.covers key = true) (h : Act.run (removeFrom key s.ref) e = (r, e')) :
    Changes limit m e e' ∧
      (r = .error (.storage (.io .injected)) ∧ e'.layout m = e.layout m ∧ e'.Unread e m ∨
        r = .ok (Entries.value? (e.contents m) key) ∧
          e'.layout m = pre ++ ⟨s.ref, s.block.erase s.block.held key⟩ :: post) := by
  have hh : e.Holds m state (pre ++ s :: post) := ht ▸ hs.holds m state hm
  obtain ⟨b, hb, -, hsb⟩ := hh.shows s (by simp)
  have hcovers : b.covers key = true := by rw [← hc, hsb]; rfl
  rcases removeFrom_at hb h with ⟨hnot, -, -⟩ |
    ⟨-, ⟨cause, haccess, rfl⟩ | ⟨es, e₁, haccess, rfl, rfl⟩⟩
  · simp [hcovers] at hnot
  · obtain ⟨hk, ⟨hr, hunread⟩ | ⟨hr, -⟩⟩ := access_of_mem hs hm (by simp [ht]) hb haccess
    · obtain rfl := Except.error.inj hr
      exact ⟨hk.changes hw hs m, Or.inl ⟨rfl, hk.layout hw hs m, hunread⟩⟩
    · simp at hr
  · obtain ⟨hk, ⟨hr, -⟩ | ⟨hr, hloaded⟩⟩ := access_of_mem hs hm (by simp [ht]) hb haccess
    · simp at hr
    obtain rfl := Except.ok.inj hr
    have htouch : Keeps limit
        (e₁.setBlock s.ref ((b.loaded s.block.held).erase s.block.held key)) _ :=
      keeps_touch s.ref b
    have hw₁ : e₁.Within limit := hw.of_suffix htouch.events
    obtain ⟨herase, hlayout⟩ := changes_erase (hk.allHold hw₁ hs) (hk.maps ▸ hm)
      ((hk.layout hw₁ hs m).trans ht) hloaded (by rw [hsb]; rfl)
    refine ⟨((hk.changes hw₁ hs m).trans herase).trans (htouch.changes hw herase.allHold m),
      Or.inr ⟨?_, ?_⟩⟩
    · rw [contents, ht, hh.tiled.value?_of_covers hc]
    · rw [htouch.layout hw herase.allHold m, hlayout]

omit [Std.IsLinearOrder K] [Lossless K] [Lossless V] in
/-- The rest of a group, which does not cover the key, is passed over. -/
theorem removeFrom_rest {refs : List BlockRef} (found : Option V)
    (h : ∀ r ∈ refs, ∃ b, e.blocks[r]? = some b ∧ b.covers key = false) :
    Act.run (refs.foldlM (fun found ref => return found <|> (← removeFrom key ref)) found) e =
      (.ok found, e) := by
  induction refs with
  | nil => rfl
  | cons r refs ih =>
    obtain ⟨b, hb, hc⟩ := h r (by simp)
    have hrest := ih fun r hr => h r (by simp [hr])
    rw [List.foldlM_cons]
    simp only [Act.run_bind, removeFrom_of_not_covers hb hc, Act.run_pure]
    cases found <;> exact hrest

/-- Where a block covers the key, the removal comes down to this block. -/
theorem remove_of_covers {r : Except MapError (Option V)} (hs : e.AllHold limit)
    (hw : e'.Within limit) (hm : e.maps[m]? = some state) (ht : e.layout m = pre ++ s :: post)
    (hc : s.block.covers key = true) (h : Act.run (remove m key) e = (r, e')) :
    Act.run (removeFrom key s.ref) e = (r, e') := by
  have hh : e.Holds m state (pre ++ s :: post) := ht ▸ hs.holds m state hm
  obtain ⟨rest, hgroups, hrest⟩ := removalGroups_of_covers hh hc
  simp only [remove, Act.run_bind, Act.run_get, hm, hgroups, List.foldlM_cons, List.foldlM_nil,
    removeFromGroup] at h
  rcases hfirst : Act.run (removeFrom key s.ref) e with ⟨cause | value, e₁⟩ <;>
    simp only [hfirst, Act.run_pure] at h
  · exact h
  · have hrecords := Act.records_foldlM (fun (found : Option V) ref =>
      (records_removeFrom key ref).bind fun value => Act.records_pure (found <|> value)) rest
      (none <|> value) e₁
    have hw₁ : e₁.Within limit := by
      refine hw.of_suffix ?_
      generalize Act.run (List.foldlM _ _ rest) e₁ = out at h hrecords
      obtain ⟨x | x, e₂⟩ := out <;> exact (Prod.mk.inj h).2 ▸ hrecords.events
    obtain ⟨hchanges, ⟨hr, -⟩ | ⟨-, hlayout⟩⟩ := removeFrom_of_covers hs hw₁ hm ht hc hfirst
    · simp at hr
    have hpassed : ∀ r ∈ rest, ∃ b, e₁.blocks[r]? = some b ∧ b.covers key = false := by
      intro r hr
      obtain ⟨x, hx, rfl⟩ := hrest r hr
      have hmem₁ : x ∈ e₁.layout m := by simp [hlayout, hx]
      obtain ⟨b, hb, hcb⟩ := (hchanges.allHold.shows_of_mem hmem₁).exists_covers key
      exact ⟨b, hb, hcb.trans ((hh.tiled.not_covers hc).2 x hx)⟩
    rw [removeFrom_rest _ hpassed] at h
    simpa using h

omit [Std.IsLinearOrder K] [Lossless K] [Lossless V] in
theorem remove_of_not_covers (hs : e.AllHold limit) (hm : e.maps[m]? = some state)
    (hnot : ∀ s ∈ e.layout m, s.block.covers key = false) :
    Act.run (remove m key) e = (.ok none, e) := by
  have hh := hs.holds m state hm
  have hgroups : e.removalGroups key [] state.directory.refs = [] := by
    rw [hh.directory, Layout.refs_directory, ← List.append_nil ((e.layout m).map _),
      removalGroups_of_not_covers _ fun x hx => ⟨hh.shows x hx, hnot x hx⟩]
    rfl
  simp only [remove, Act.run_bind, Act.run_get, hm, hgroups]
  rfl

/-- What comes of a removal.  One that fails has been refused the page of a block and changes no
layout; one that succeeds gives the value that was stored, and takes the entry from the block that
covers the key, if there is one. -/
theorem remove_spec {r : Except MapError (Option V)} (hs : e.AllHold limit) (hw : e'.Within limit)
    (hm : e.maps[m]? = some state) (h : Act.run (remove m key) e = (r, e')) :
    Changes limit m e e' ∧
      (r = .error (.storage (.io .injected)) ∧ e'.layout m = e.layout m ∧ e'.Unread e m ∨
        r = .ok (Entries.value? (e.contents m) key) ∧
          Layout.Removal key (e.layout m) (e'.layout m)) := by
  by_cases hcovers : ∃ s ∈ e.layout m, s.block.covers key = true
  · obtain ⟨s, hmem, hc⟩ := hcovers
    obtain ⟨pre, post, ht⟩ := List.append_of_mem hmem
    obtain ⟨hchanges, hfailed | ⟨hr, hlayout⟩⟩ :=
      removeFrom_of_covers hs hw hm ht hc (remove_of_covers hs hw hm ht hc h)
    · exact ⟨hchanges, Or.inl hfailed⟩
    · refine ⟨hchanges, Or.inr ⟨hr, ?_⟩⟩
      rw [ht, hlayout]
      exact .one hc
  · have hnot : ∀ s ∈ e.layout m, s.block.covers key = false := fun s hmem =>
      Bool.eq_false_iff.2 fun hc => hcovers ⟨s, hmem, hc⟩
    rw [remove_of_not_covers hs hm hnot] at h
    obtain ⟨rfl, rfl⟩ := Prod.mk.inj h
    refine ⟨(Keeps.refl limit _).changes hw hs m, Or.inr ⟨?_, .none hnot⟩⟩
    rw [contents, Entries.value?_eq_none ((hs.holds m state hm).tiled.ne_of_not_covers hnot)]

end PagedMap.Engine
