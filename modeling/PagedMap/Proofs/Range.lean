import Mathlib
import PagedMap.Engine.Scan
import PagedMap.Proofs.Standing

/-!
# Reading ranges

A scan over a map that nobody else changes goes through the blocks of the layout that overlap the
range and no block twice, although it looks at the successor of every block it reads.  What it has
still to come to is a suffix of the layout (`Scan.Awaits`): the fresh blocks of its queue are those
of the suffix that overlap the range, preceded at most by the first block of the suffix once more.

So a scan to its end gives the values of the keys within the range, in order
(`Engine.valuesBetween_spec`), and a scan for one key gives the value of the key
(`Engine.valuesAt_spec`, `Engine.get?_spec`).  A scan that stays open gives them one by one: each
step gives the first of the values still pending (`Engine.next_spec`).
-/

namespace PagedMap

variable {K V : Type} [LE K] [DecidableLE K]

namespace Entries

theorem between_self [Std.IsLinearOrder K] {es : Entries K V} (h : es.Sorted) (key : K) :
    (between es (some key) (some key)).map (·.2) = (value? es key).toList := by
  induction es with
  | nil => rfl
  | cons a es ih =>
    obtain ⟨ha, hes⟩ := List.pairwise_cons.1 h
    by_cases hk : a.1 ≤ key ∧ key ≤ a.1
    · have hrest : between es (some key) (some key) = [] := by
        rw [List.eq_nil_iff_forall_not_mem]
        intro e he
        obtain ⟨hmem, -, hlast⟩ := mem_between.1 he
        have := ha e hmem
        have := hlast key rfl
        grind
      have hval : value? (a :: es) key = some a.2 := by simp [value?, hk]
      have hhead : between (a :: es) (some key) (some key) =
          a :: between es (some key) (some key) := by
        simp [between, hk]
      rw [hhead, hrest, hval]
      rfl
    · have hval : value? (a :: es) key = value? es key := by simp [value?, hk]
      have hhead : between (a :: es) (some key) (some key) = between es (some key) (some key) := by
        have hnot : ¬ (key ≤ a.1 ∧ a.1 ≤ key) := fun hle => hk hle.symm
        simp [between, hnot]
      rw [hhead, hval, ih hes]

end Entries

/-! ### What a scan has still to come to -/

namespace Scan

/-- Of the layout `t₀` the scan has still to come to `t`. -/
structure Awaits (t₀ : Layout K V) (s : Scan K V) (t : Layout K V) : Prop where
  suffix : t <:+ t₀
  fresh : ∀ x ∈ t, x.block.id ∉ s.visited
  queue : ∃ q first : Layout K V, s.queue = q.map (·.ref) ∧ q ⊆ t₀ ∧ first <+: t.take 1 ∧
    q.filter (fun x => x.block.id ∉ s.visited) =
      first ++ t.filter fun x => x.block.overlaps s.first s.last

variable [Wire K] [Wire V] {e : Engine K V} {s : Scan K V} {t₀ t : Layout K V} {lastId : Nat}

theorem isFresh_of_shows {x : Stretch K V} (h : e.Shows x) :
    s.isFresh e x.ref = decide (x.block.id ∉ s.visited) := by
  obtain ⟨b, hb, -, hx⟩ := h
  rw [isFresh, hb, hx]
  rfl

omit [LE K] [DecidableLE K] [Wire K] [Wire V] in
/-- A scan comes to the first block of its queue that it has not come to before. -/
theorem visit?_cases {α : Type} {ref : α → BlockRef} {id : α → Nat} {q : List α}
    (hqueue : s.queue = q.map ref) (hq : ∀ x ∈ q, ∃ b, e.blocks[ref x]? = some b ∧ b.id = id x) :
    s.visit? e = none ∧ (∀ x ∈ q, id x ∈ s.visited) ∨
      ∃ passed x rest, q = passed ++ x :: rest ∧ (∀ y ∈ passed, id y ∈ s.visited) ∧
        id x ∉ s.visited ∧ s.visit? e = some (ref x, { s with
          queue := rest.map ref
          visited := id x :: s.visited
          buffer := [] }) := by
  have hfresh (x : α) (hx : x ∈ q) : s.isFresh e (ref x) = decide (id x ∉ s.visited) := by
    obtain ⟨b, hb, hid⟩ := hq x hx
    rw [isFresh, hb, ← hid]
    rfl
  cases hcases : q.filter fun x => decide (id x ∉ s.visited) with
  | nil =>
    have hall : ∀ x ∈ q, id x ∈ s.visited := fun x hx => by
      simpa using List.filter_eq_nil_iff.1 hcases x hx
    refine Or.inl ⟨?_, hall⟩
    have hdrop : (s.queue.dropWhile fun ref => !s.isFresh e ref) = [] := by
      rw [List.dropWhile_eq_nil_iff, hqueue, List.forall_mem_map]
      intro x hx
      simpa [hfresh x hx] using hall x hx
    rw [Scan.visit?, hdrop]
  | cons x rest =>
    obtain ⟨passed, coming, rfl, hpassed, hx, -⟩ := List.filter_eq_cons_iff.1 hcases
    have hold : ∀ y ∈ passed, id y ∈ s.visited := fun y hy => by simpa using hpassed y hy
    refine Or.inr ⟨passed, x, coming, rfl, hold, by simpa using hx, ?_⟩
    obtain ⟨b, hb, hid⟩ := hq x (by simp)
    have hdrop : (s.queue.dropWhile fun ref => !s.isFresh e ref) = ref x :: coming.map ref := by
      rw [hqueue, List.map_append, List.dropWhile_append_of_pos, List.map_cons,
        List.dropWhile_cons_of_neg]
      · simpa [hfresh x (by simp)] using hx
      · rw [List.forall_mem_map]
        intro y hy
        simpa [hfresh y (by simp [hy])] using hold y hy
    rw [Scan.visit?, hdrop, ← hid]
    simp [hb]

/-- The successor of a block is what comes next in the layout, if anything, and the scan keeps it if
it has not come to it before. -/
theorem exists_next {visited : List Nat} {x : Stretch K V} {post : Layout K V}
    (hlinked : Layout.Linked (x :: post)) (hshows : ∀ y ∈ post, e.Shows y)
    (hvisited : s.visited = visited) (hfresh : ∀ y ∈ post, y.block.id ∉ visited) :
    ∃ first : Layout K V, first <+: post.take 1 ∧ x.block.next.toList = first.map (·.ref) ∧
      x.block.next.toList.filter (s.isFresh e) = first.map (·.ref) := by
  subst hvisited
  cases hnext : x.block.next with
  | none => exact ⟨[], List.nil_prefix, rfl, rfl⟩
  | some r =>
    obtain ⟨y, hy, rfl⟩ := hlinked.1 r (by simp [hnext])
    obtain ⟨post, rfl⟩ := List.head?_eq_some_iff.1 hy
    have hf : s.isFresh e y.ref = true := by
      simpa [isFresh_of_shows (hshows y (by simp))] using hfresh y (by simp)
    exact ⟨[y], by simp, rfl, by simp [hf]⟩

omit [LE K] [DecidableLE K] [Wire K] [Wire V] in
/-- Where a scan comes to a block, what it has yet to come to is what follows in the layout. -/
theorem exists_post {first rest : Layout K V} {x : Stretch K V} {p : Stretch K V → Bool}
    (hapart : t.Pairwise fun x y => x.block.id ≠ y.block.id) (hfirst : first <+: t.take 1)
    (h : first ++ t.filter p = x :: rest) :
    ∃ skipped post, t = skipped ++ x :: post ∧ (∀ y ∈ skipped, p y = false) ∧
      (rest.filter fun y => decide (y.block.id ≠ x.block.id)) = post.filter p := by
  have hkept {l : Layout K V} (hl : ∀ y ∈ l, x.block.id ≠ y.block.id) :
      (l.filter fun y => decide (y.block.id ≠ x.block.id)) = l :=
    List.filter_eq_self.2 fun y hy => by simpa using (hl y hy).symm
  cases first with
  | nil =>
    obtain ⟨skipped, post, rfl, hskipped, -, rfl⟩ := List.filter_eq_cons_iff.1 h
    have hne := (List.pairwise_cons.1 (List.pairwise_append.1 hapart).2.1).1
    exact ⟨skipped, post, rfl, fun y hy => by simpa using hskipped y hy,
      hkept fun y hy => hne y (List.mem_of_mem_filter hy)⟩
  | cons y first =>
    obtain ⟨post, rfl, rfl⟩ : ∃ post, t = y :: post ∧ first = [] := by
      cases t with
      | nil => simp at hfirst
      | cons z post =>
        obtain ⟨rfl, hnil⟩ := List.cons_prefix_cons.1 hfirst
        exact ⟨post, rfl, by simpa using hnil⟩
    obtain ⟨rfl, rfl⟩ := List.cons.inj h
    have hne := (List.pairwise_cons.1 hapart).1
    have hpost := hkept fun z (hz : z ∈ post.filter p) => hne z (List.mem_of_mem_filter hz)
    refine ⟨[], post, rfl, by simp, ?_⟩
    change ((y :: post).filter p).filter _ = _
    rw [List.filter_cons]
    split
    · rw [List.filter_cons_of_neg (by simp), hpost]
    · exact hpost

/-- A scan comes to no more blocks if none overlaps the range any more, or it passes over blocks
that do not overlap the range, comes to the next one, and goes on after it. -/
theorem Awaits.visit? (h : Awaits t₀ s t) (hs : t₀.Tiled lastId) (hshows : ∀ x ∈ t₀, e.Shows x) :
    s.visit? e = none ∧ (∀ x ∈ t, x.block.overlaps s.first s.last = false) ∨
      ∃ skipped x post s', t = skipped ++ x :: post ∧
        (∀ y ∈ skipped, y.block.overlaps s.first s.last = false) ∧
        s.visit? e = some (x.ref, s') ∧ s'.first = s.first ∧ s'.last = s.last ∧
        ∀ (e' : Engine K V) (values : List V), (∀ x ∈ t₀, e'.Shows x) →
          Awaits t₀ (s'.filled e' values x.block.next) post := by
  obtain ⟨q, first, hqueue, hq, hfirst, hfilter⟩ := h.queue
  have hsub : t ⊆ t₀ := h.suffix.subset
  have hapart : t.Pairwise fun x y => x.block.id ≠ y.block.id :=
    (hs.apart.sublist h.suffix.sublist).imp fun hp => hp.2.1
  have hids (x : Stretch K V)
      (hx : x ∈ q) : ∃ b, e.blocks[x.ref]? = some b ∧ b.id = x.block.id := by
    obtain ⟨b, hb, -, hxb⟩ := hshows x (hq hx)
    exact ⟨b, hb, by rw [hxb]; rfl⟩
  -- the queue, less what was visited, leads through the blocks of `t` that overlap
  rcases visit?_cases hqueue hids with ⟨hvisit, hall⟩ |
    ⟨passed, x, coming, rfl, hpassed, hx, hvisit⟩
  · refine Or.inl ⟨hvisit, fun x hx => ?_⟩
    have hnil : (q.filter fun x => decide (x.block.id ∉ s.visited)) = [] :=
      List.filter_eq_nil_iff.2 fun x hx => by simpa using hall x hx
    have hrest := (List.append_eq_nil_iff.1 (hfilter.symm.trans hnil)).2
    simpa using List.filter_eq_nil_iff.1 hrest x hx
  · have hcases : ((passed ++ x :: coming).filter fun x => decide (x.block.id ∉ s.visited)) =
        x :: coming.filter fun x => decide (x.block.id ∉ s.visited) := by
      have hnil : (passed.filter fun x => decide (x.block.id ∉ s.visited)) = [] :=
        List.filter_eq_nil_iff.2 fun y hy => by simpa using hpassed y hy
      rw [List.filter_append, hnil, List.nil_append, List.filter_cons_of_pos (by simpa using hx)]
    obtain ⟨skipped, post, rfl, hskipped, hpost⟩ :=
      exists_post hapart hfirst (hfilter.symm.trans hcases)
    refine Or.inr ⟨skipped, x, post, _, rfl, hskipped, hvisit, rfl, rfl,
      fun e' values hshows' => ?_⟩
    have hsuffix : post <:+ t₀ :=
      (List.suffix_append_of_suffix (List.suffix_cons x post)).trans h.suffix
    have hne := (List.pairwise_cons.1 (List.pairwise_append.1 hapart).2.1).1
    have hfresh : ∀ y ∈ post, y.block.id ∉ x.block.id :: s.visited := fun y hy => by
      have := h.fresh y (by simp [hy])
      simp [this, (hne y hy).symm]
    have hlinked : Layout.Linked (x :: post) := by
      obtain ⟨pre, rfl⟩ := h.suffix
      have hrest : Layout.Linked (skipped ++ x :: post) := hs.linked.right
      exact hrest.right
    -- the successor that comes first in the queue is what follows in the layout
    obtain ⟨next, hnext, -, hqueue'⟩ := exists_next (s := { s with
      queue := coming.map (·.ref)
      visited := x.block.id :: s.visited
      buffer := [] }) hlinked (fun y hy => hshows' y (hsuffix.subset hy)) rfl hfresh
    refine ⟨hsuffix, hfresh, next ++ coming, next, ?_, ?_, hnext, ?_⟩
    · rw [filled, hqueue', List.map_append]
    · refine List.append_subset.2 ⟨fun y hy => hsuffix.subset ?_, fun y hy => hq (by simp [hy])⟩
      exact List.mem_of_mem_take (hnext.subset hy)
    · have hnextfresh :
          (next.filter fun y => decide (y.block.id ∉ x.block.id :: s.visited)) = next :=
        List.filter_eq_self.2 fun y hy => by
          simpa using hfresh y (List.mem_of_mem_take (hnext.subset hy))
      have hcoming : (coming.filter fun y => decide (y.block.id ∉ x.block.id :: s.visited)) =
          post.filter fun y => y.block.overlaps s.first s.last := by
        rw [← hpost, List.filter_filter]
        refine List.filter_congr fun y _ => ?_
        simp
      rw [List.filter_append]
      exact congrArg₂ _ hnextfresh hcoming

end Scan

/-! ### Reading the blocks -/

namespace Engine

variable [Wire K] [Wire V] [Lossless K] [Lossless V] [Std.IsLinearOrder K]

variable {e e' : Engine K V} {m : Nat} {state : MapState K} {x : Stretch K V} {t : Layout K V}
  {limit : Option Nat} {ref : BlockRef} {s : Scan K V} {first last : Option K} {key : K}

theorem keeps_valuesIn {r : Except MapError (List V × Option BlockRef)}
    (h : Act.run (valuesIn ref first last) e = (r, e')) : Keeps limit e e' := by
  rcases valuesIn_cases h with ⟨-, -, rfl⟩ |
    ⟨b, hb, ⟨-, -, rfl⟩ | ⟨-, ⟨cause, haccess, -⟩ | ⟨es, e₁, haccess, -, rfl⟩⟩⟩
  · exact .refl limit _
  · exact .refl limit _
  · exact (access_spec hb haccess).1
  · exact (access_spec hb haccess).1.trans (keeps_touch _ _)

/-- The last that happened is that the page of a block could not be read, and the block is not in
memory. -/
def Missed (e' : Engine K V) (cause : StoreError) : Prop :=
  ∃ (ref : BlockRef) (b : Block K V) (e : Engine K V), e'.blocks[ref]? = some b ∧ b.entries = none ∧
    e'.blocks = e.blocks ∧ (e.loadPage b.home.store b.page).1 = .error cause ∧
    e'.events = (e.loadPage b.home.store b.page).2.events

omit [Lossless K] [Lossless V] [Std.IsLinearOrder K] in
theorem valuesIn_error {cause : MapError}
    (h : Act.run (valuesIn ref first last) e = (.error cause, e')) :
    ∃ c, cause = .storage c ∧ e'.Missed c := by
  rcases valuesIn_cases h with ⟨-, hr, -⟩ |
    ⟨b, hb, ⟨-, hr, -⟩ | ⟨-, ⟨cause', haccess, hr⟩ | ⟨es, e₁, -, hr, -⟩⟩⟩
  · simp at hr
  · simp at hr
  · obtain rfl := Except.error.inj hr
    obtain ⟨hnone, c, rfl, hload⟩ := access_error haccess
    have hblocks := (loadPage_cases hload).1
    exact ⟨c, rfl, ref, b, e, hblocks ▸ hb, hnone, hblocks, by rw [hload], by rw [hload]⟩
  · simp at hr

/-- What comes of reading the values of a block of a map. -/
theorem valuesIn_of_mem {e₀ : Engine K V} {r : Except MapError (List V × Option BlockRef)}
    (hk : Keeps limit e e₀) (hs : e.AllHold limit) (hw : e'.Within limit)
    (hm : e.maps[m]? = some state) (hmem : x ∈ e.layout m)
    (h : Act.run (valuesIn x.ref first last) e₀ = (r, e')) :
    Keeps limit e e' ∧ (r = .error (.storage (.io .injected)) ∧ e'.Unread e m ∨
      r = .ok ((Entries.between x.block.held first last).map (·.2), x.block.next)) := by
  have hk₁ : Keeps limit e₀ e' := keeps_valuesIn h
  have hw₀ := hw.of_suffix hk₁.events
  have hs₀ := hk.allHold hw₀ hs
  have hm₀ : e₀.maps[m]? = some state := hk.maps ▸ hm
  have hmem₀ : x ∈ e₀.layout m := hk.layout hw₀ hs m ▸ hmem
  refine ⟨hk.trans hk₁, ?_⟩
  have hh := hs₀.holds m state hm₀
  obtain ⟨b, hb, -, hxb⟩ := hh.shows x hmem₀
  have hnext : b.next = x.block.next := by rw [hxb]; rfl
  have hoverlaps : b.overlaps first last = x.block.overlaps first last := by rw [hxb]; rfl
  rcases valuesIn_at hb h with ⟨hnot, rfl, -⟩ |
    ⟨-, ⟨cause, haccess, rfl⟩ | ⟨es, e₁, haccess, rfl, -⟩⟩
  · have hnil : Entries.between x.block.held first last = [] :=
      (hh.tiled.blocks x hmem₀).between_eq_nil (by simp [← hoverlaps, hnot])
    exact Or.inr (by rw [hnil, hnext]; rfl)
  · obtain ⟨-, ⟨hr, hunread⟩ | ⟨hr, -⟩⟩ := access_of_mem hs₀ hm₀ hmem₀ hb haccess
    · exact Or.inl ⟨by rw [Except.error.inj hr], hunread.of_keeps hk hw₀ hs⟩
    · simp at hr
  · obtain ⟨-, ⟨hr, -⟩ | ⟨hr, -⟩⟩ := access_of_mem hs₀ hm₀ hmem₀ hb haccess
    · simp at hr
    · obtain rfl := Except.ok.inj hr
      exact Or.inr (by rw [hnext])

/-! ### Going through the blocks -/

omit [Wire K] [Wire V] [Lossless K] [Lossless V] in
/-- Blocks that do not overlap a range have no entries in it. -/
theorem between_skip {skipped : Layout K V} (hblocks : ∀ y ∈ skipped, y.block.InBounds)
    (h : ∀ y ∈ skipped, y.block.overlaps first last = false) :
    Entries.between (skipped ++ t).contents first last = Entries.between t.contents first last := by
  induction skipped with
  | nil => rfl
  | cons y skipped ih =>
    have hy : Entries.between y.block.held first last = [] :=
      (hblocks y (by simp)).between_eq_nil (by simp [h y (by simp)])
    rw [List.cons_append, Layout.contents_cons, Entries.between_append, hy, List.nil_append]
    exact ih (fun z hz => hblocks z (by simp [hz])) fun z hz => h z (by simp [hz])

/-- The values that the blocks of a layout have in a range. -/
def valuesOf (t : Layout K V) (first last : Option K) : List V :=
  (Entries.between t.contents first last).map (·.2)

/-- A step of a scan: it ends, fails, or goes on with what comes after a block. -/
theorem visit?_spec (hs : e.AllHold limit) (hm : e.maps[m]? = some state)
    (ha : s.Awaits (e.layout m) t) :
    s.visit? e = none ∧ valuesOf t s.first s.last = [] ∨
      ∃ ref s' post, post.length < t.length ∧ s.visit? e = some (ref, s') ∧
        ∀ e₀ r e₁, Keeps limit e e₀ → Act.run (valuesIn ref s'.first s'.last) e₀ = (r, e₁) →
          e₁.Within limit →
          r = .error (.storage (.io .injected)) ∧ e₁.Unread e m ∨
            ∃ values next, r = .ok (values, next) ∧
              values ++ valuesOf post s.first s.last = valuesOf t s.first s.last ∧
              (s'.filled e₁ values next).first = s.first ∧
              (s'.filled e₁ values next).last = s.last ∧
              (s'.filled e₁ values next).Awaits (e₁.layout m) post := by
  have hh := hs.holds m state hm
  have hblocks : ∀ y ∈ t, y.block.InBounds := fun y hy => hh.tiled.blocks y (ha.suffix.subset hy)
  rcases ha.visit? hh.tiled hh.shows with ⟨hvisit, hnot⟩ |
    ⟨skipped, x, post, s', rfl, hskipped, hvisit, hfirst, hlast, hawaits⟩
  · refine Or.inl ⟨hvisit, ?_⟩
    have hskip := between_skip (t := []) hblocks hnot
    rw [List.append_nil] at hskip
    rw [valuesOf, hskip]
    rfl
  · refine Or.inr ⟨x.ref, s', post, by simp; omega, hvisit, fun e₀ r e₁ hk₀ hrun hw => ?_⟩
    have hmem := ha.suffix.subset (List.mem_append_right skipped List.mem_cons_self)
    obtain ⟨hk, ⟨hr, hunread⟩ | rfl⟩ := valuesIn_of_mem hk₀ hs hw hm hmem hrun
    · exact Or.inl ⟨hr, hunread⟩
    · refine Or.inr ⟨_, _, rfl, ?_, hfirst, hlast, ?_⟩
      · rw [valuesOf, valuesOf, between_skip (fun y hy => hblocks y (by simp [hy])) hskipped,
          Layout.contents_cons, Entries.between_append, List.map_append, hfirst, hlast]
      · rw [hk.layout hw hs m]
        exact hawaits e₁ _ fun y hy => hk.shows hw hs.roomy (hh.shows y hy)

/-- Where a scan is over, or was to come to no more blocks, there are no values left. -/
theorem valuesOf_of_over {fuel : Nat} (hs : e.AllHold limit) (hm : e.maps[m]? = some state)
    (ha : s.Awaits (e.layout m) t) (hfuel : t.length ≤ fuel)
    (hover : fuel = 0 ∨ s.visit? e = none) : valuesOf t s.first s.last = [] := by
  rcases hover with rfl | hvisit
  · rw [List.eq_nil_of_length_eq_zero (Nat.le_zero.1 hfuel)]
    rfl
  · rcases visit?_spec hs hm ha with ⟨-, hnil⟩ | ⟨ref, s', post, -, hvisit', -⟩
    · exact hnil
    · simp [hvisit] at hvisit'

theorem keeps_valuesWithin {fuel : Nat} {r : Except MapError (List V)}
    (h : Act.run (valuesWithin fuel s) e = (r, e')) : Keeps limit e e' := by
  induction fuel using Nat.strong_induction_on generalizing s e r with
  | _ fuel ih =>
    rcases valuesWithin_cases h with ⟨-, -, rfl⟩ | ⟨left, ref, s₁, rfl, -,
      ⟨cause, hvalues, -⟩ | ⟨values, next, e₁, rest, hvalues, hrest, -⟩⟩
    · exact .refl limit _
    · exact keeps_valuesIn hvalues
    · exact (keeps_valuesIn hvalues).trans (ih left left.lt_succ_self hrest)

theorem valuesWithin_spec {fuel : Nat} {r : Except MapError (List V)} (hs : e.AllHold limit)
    (hw : e'.Within limit) (hm : e.maps[m]? = some state) (ha : s.Awaits (e.layout m) t)
    (hfuel : t.length ≤ fuel) (h : Act.run (valuesWithin fuel s) e = (r, e')) :
    r = .error (.storage (.io .injected)) ∧ e'.Unread e m ∨
      r = .ok (s.buffer ++ valuesOf t s.first s.last) := by
  induction fuel using Nat.strong_induction_on generalizing s t e r with
  | _ fuel ih =>
    rcases valuesWithin_cases h with ⟨hover, rfl, -⟩ | ⟨left, ref, s₁, rfl, hvisit, hread⟩
    · exact Or.inr (by rw [valuesOf_of_over hs hm ha hfuel hover, List.append_nil])
    rcases visit?_spec hs hm ha with ⟨hnone, -⟩ | ⟨ref', s', post, hlt, hvisit', hstep⟩
    · simp [hvisit] at hnone
    obtain ⟨rfl, rfl⟩ := Prod.mk.inj (Option.some.inj (hvisit.symm.trans hvisit'))
    rcases hread with ⟨cause, hvalues, rfl⟩ | ⟨values, next, e₁, rest, hvalues, hrest, rfl⟩
    · rcases hstep _ _ _ (.refl limit _) hvalues hw with ⟨hr, hunread⟩ | ⟨values, next, hr, -⟩
      · exact Or.inl ⟨by rw [Except.error.inj hr], hunread⟩
      · simp at hr
    · have hk : Keeps limit e e₁ := keeps_valuesIn hvalues
      have hkrest : Keeps limit e₁ e' := keeps_valuesWithin hrest
      have hw₁ := hw.of_suffix hkrest.events
      obtain ⟨hr, -⟩ | ⟨values, next, hr, hvaluesOf, hfirst, hlast, hawaits⟩ :=
        hstep _ _ _ (.refl limit _) hvalues hw₁
      · simp at hr
      obtain ⟨rfl, rfl⟩ := Prod.mk.inj (Except.ok.inj hr)
      obtain ⟨rfl, hunread⟩ | rfl :=
        ih left left.lt_succ_self (hk.allHold hw₁ hs) (hk.maps ▸ hm) hawaits (by omega) hrest
      · exact Or.inl ⟨rfl, hunread.of_keeps hk hw₁ hs⟩
      · refine Or.inr ?_
        rw [hfirst, hlast, ← hvaluesOf]
        rfl

/-! ### Values -/

variable {fuel : Nat}

omit [Wire K] [Wire V] [Lossless K] [Lossless V] [Std.IsLinearOrder K] in
theorem length_layout_le {lastId n : Nat} (h : t.Tiled lastId) (hlt : ∀ x ∈ t, x.ref < n) :
    t.length ≤ n := by
  have hnodup : (t.map (·.ref)).Nodup := List.pairwise_map.2 (h.apart.imp fun hp => hp.1)
  have hsub : t.map (·.ref) ⊆ List.range n := by
    intro ref href
    obtain ⟨x, hx, rfl⟩ := List.mem_map.1 href
    exact List.mem_range.2 (hlt x hx)
  simpa using (List.subperm_of_subset hnodup hsub).length_le

omit [Lossless K] [Lossless V] [Std.IsLinearOrder K] in
/-- A scan with a bound is to come to the blocks that overlap the range. -/
theorem scan_eq (hs : e.AllHold limit) (hm : e.maps[m]? = some state)
    (hbound : ¬ (first.isNone ∧ last.isNone)) :
    scan m first last e = .ok { first, last, queue :=
      ((e.layout m).filter fun x => x.block.overlaps first last).map (·.ref) } := by
  have hh := hs.holds m state hm
  rw [scan, if_neg hbound]
  simp only [hm, hh.directory, Layout.refs_directory, List.filter_map]
  congr 3
  refine List.filter_congr fun x hx => ?_
  obtain ⟨b, hb, -, hxb⟩ := hh.shows x hx
  simp only [Function.comp, hb, hxb]
  rfl

omit [Lossless K] [Lossless V] [Std.IsLinearOrder K] in
/-- A scan with a bound has still to come to the whole layout. -/
theorem scan_spec (hs : e.AllHold limit) (hm : e.maps[m]? = some state)
    (hbound : ¬ (first.isNone ∧ last.isNone)) :
    ∃ s, scan m first last e = .ok s ∧ s.first = first ∧ s.last = last ∧ s.buffer = [] ∧
      s.Awaits (e.layout m) (e.layout m) := by
  refine ⟨_, scan_eq hs hm hbound, rfl, rfl, rfl, List.suffix_refl _, by simp, ?_⟩
  refine ⟨(e.layout m).filter fun x => x.block.overlaps first last, [], rfl,
    fun _ hx => List.mem_of_mem_filter hx, List.nil_prefix, ?_⟩
  simp

theorem keeps_valuesBetween {r : Except MapError (List V)}
    (h : Act.run (valuesBetween m first last) e = (r, e')) : Keeps limit e e' := by
  rcases valuesBetween_cases h with ⟨cause, -, -, rfl⟩ | ⟨s, -, hrun⟩
  · exact .refl limit _
  · exact keeps_valuesWithin hrun

theorem valuesBetween_spec {r : Except MapError (List V)} (hs : e.AllHold limit)
    (hw : e'.Within limit) (hm : e.maps[m]? = some state) (hbound : ¬ (first.isNone ∧ last.isNone))
    (h : Act.run (valuesBetween m first last) e = (r, e')) :
    r = .error (.storage (.io .injected)) ∧ e'.Unread e m ∨
      r = .ok ((Entries.between (e.contents m) first last).map (·.2)) := by
  have hh := hs.holds m state hm
  obtain ⟨s, hscan, rfl, rfl, hbuffer, ha⟩ := scan_spec hs hm hbound
  have hlength := length_layout_le hh.tiled fun x hx => (hh.shows x hx).lt_length
  simp only [valuesBetween, Act.run_bind, Act.run_get, hscan] at h
  have hspec := valuesWithin_spec hs hw hm ha hlength h
  rwa [hbuffer, List.nil_append] at hspec

omit [Lossless K] [Lossless V] [Std.IsLinearOrder K] in
theorem valuesBetween_unbounded (m : Nat) (e : Engine K V) :
    Act.run (valuesBetween (V := V) m none none) e = (.error .unboundedRange, e) := rfl

theorem valuesAt_spec {r : Except MapError (List V)} (hs : e.AllHold limit) (hw : e'.Within limit)
    (hm : e.maps[m]? = some state) (h : Act.run (valuesAt m key) e = (r, e')) :
    r = .error (.storage (.io .injected)) ∧ e'.Unread e m ∨
      r = .ok (Entries.value? (e.contents m) key).toList := by
  have hspec := valuesBetween_spec hs hw hm (by simp) h
  rwa [Entries.between_self (hs.sorted_contents m)] at hspec

/-! ### The next value -/

theorem keeps_nextWithin {keep : Scan K V → Engine K V → Engine K V}
    {value : Option (Except MapError V)} {s' : Scan K V}
    (hkeep : ∀ s e, Keeps limit e (keep s e))
    (h : nextWithin keep fuel s e = (value, s', e')) : Keeps limit e e' := by
  have hkeeps := nextWithin_induct (.refl limit) (fun _ _ _ => .trans) hkeep
    (fun ref first last e => (keeps_valuesIn rfl : Keeps limit e
      (Act.run (valuesIn ref first last) e).2)) fuel s e
  rwa [h] at hkeeps

omit [Lossless K] [Lossless V] [Std.IsLinearOrder K] in
theorem nextWithin_error {keep : Scan K V → Engine K V → Engine K V} {cause : MapError}
    {s' : Scan K V} (h : nextWithin keep fuel s e = (some (.error cause), s', e')) :
    ∃ c, cause = .storage c ∧ e'.Missed c := by
  induction fuel using Nat.strong_induction_on generalizing s e with
  | _ fuel ih =>
    rcases nextWithin_cases h with ⟨v, buffer, -, hvalue, -⟩ | ⟨-, -, hvalue, -⟩ |
      ⟨left, ref, s₁, r, e₁, -, rfl, -, hvalues, ⟨cause', rfl, hvalue, -, rfl⟩ |
        ⟨values, next, -, hrest⟩⟩
    · simp at hvalue
    · simp at hvalue
    · obtain rfl := Except.error.inj (Option.some.inj hvalue)
      exact valuesIn_error hvalues
    · exact ih left left.lt_succ_self hrest

/-- What comes of a scan to its first value. -/
theorem nextWithin_spec {keep : Scan K V → Engine K V → Engine K V}
    {value : Option (Except MapError V)} {s' : Scan K V} (hkeep : ∀ s e, Keeps limit e (keep s e))
    (hs : e.AllHold limit) (hw : e'.Within limit) (hm : e.maps[m]? = some state)
    (ha : s.Awaits (e.layout m) t) (hfuel : t.length ≤ fuel)
    (h : nextWithin keep fuel s e = (value, s', e')) :
    value = some (.error (.storage (.io .injected))) ∧ e'.Unread e m ∨
      value = (s.buffer ++ valuesOf t s.first s.last).head?.map .ok ∧
        ∃ t', s'.Awaits (e'.layout m) t' ∧ s'.buffer ++ valuesOf t' s'.first s'.last =
          (s.buffer ++ valuesOf t s.first s.last).tail := by
  have hended (s : Scan K V) (e : Engine K V) : s.ended.Awaits (e.layout m) [] ∧
      s.ended.buffer ++ valuesOf ([] : Layout K V) s.ended.first s.ended.last = [] :=
    ⟨⟨List.nil_suffix, by simp, [], [], rfl, by simp, List.nil_prefix, rfl⟩, rfl⟩
  have hgiven {v : V} {buffer : List V} (hbuffer : s.buffer = v :: buffer) :
      { s with buffer }.Awaits (e.layout m) t := ⟨ha.suffix, ha.fresh, ha.queue⟩
  induction fuel using Nat.strong_induction_on generalizing s t e with
  | _ fuel ih =>
    rcases nextWithin_cases h with ⟨v, buffer, hbuffer, rfl, rfl, rfl⟩ |
      ⟨hbuffer, hover, rfl, rfl, rfl⟩ | ⟨left, ref, s₁, r, e₁, hbuffer, rfl, hvisit, hvalues, hread⟩
    · rw [hbuffer]
      exact Or.inr ⟨rfl, t, hgiven hbuffer, rfl⟩
    · rw [hbuffer, List.nil_append, valuesOf_of_over hs hm ha hfuel hover]
      exact Or.inr ⟨rfl, [], hended s _⟩
    · rcases visit?_spec hs hm ha with ⟨hvisit', -⟩ | ⟨ref, s₁, post, hlt, hvisit', hstep⟩ <;>
        rw [hvisit] at hvisit'
      · simp at hvisit'
      obtain ⟨rfl, rfl⟩ := Prod.mk.inj (Option.some.inj hvisit')
      rw [hbuffer, List.nil_append]
      have hk₀ := hkeep (s₁.reading ref) e
      rcases hread with ⟨cause, rfl, rfl, -, rfl⟩ | ⟨values, next, rfl, hrest⟩
      · rcases hstep _ _ _ hk₀ hvalues hw with ⟨hr, hunread⟩ | ⟨values, next, hr, -⟩
        · exact Or.inl ⟨by rw [Except.error.inj hr], hunread⟩
        · simp at hr
      · have hk : Keeps limit e e₁ := hk₀.trans (keeps_valuesIn hvalues)
        have hkrest : Keeps limit e₁ e' := keeps_nextWithin hkeep hrest
        have hw₁ := hw.of_suffix hkrest.events
        obtain ⟨hr, -⟩ | ⟨values, next, hr, hvaluesOf, hfirst, hlast, hawaits⟩ :=
          hstep _ _ _ hk₀ hvalues hw₁
        · simp at hr
        obtain ⟨rfl, rfl⟩ := Prod.mk.inj (Except.ok.inj hr)
        rcases ih left left.lt_succ_self (hk.allHold hw₁ hs) (hk.maps ▸ hm) hawaits (by omega) hrest
          (fun _ => ⟨hawaits.suffix, hawaits.fresh, hawaits.queue⟩) with ⟨hr, hunread⟩ | hr
        · exact Or.inl ⟨hr, hunread.of_keeps hk hw₁ hs⟩
        · rw [hfirst, hlast] at hr
          exact Or.inr (hvaluesOf ▸ hr)

theorem keeps_get? {r : Except MapError (Option V)} (h : Act.run (get? m key) e = (r, e')) :
    Keeps limit e e' := by
  rcases get?_cases h with ⟨cause, -, -, rfl⟩ | ⟨s, value, s', -, hnext, -⟩
  · exact .refl limit _
  · exact keeps_nextWithin (fun _ _ => .refl limit _) hnext

theorem get?_spec {r : Except MapError (Option V)} (hs : e.AllHold limit) (hw : e'.Within limit)
    (hm : e.maps[m]? = some state) (h : Act.run (get? m key) e = (r, e')) :
    r = .error (.storage (.io .injected)) ∧ e'.Unread e m ∨
      r = .ok (Entries.value? (e.contents m) key) := by
  have hh := hs.holds m state hm
  have hbound : ¬ ((some key).isNone ∧ (some key).isNone) := by simp
  obtain ⟨s, hscan, hfirst, hlast, hbuffer, ha⟩ := scan_spec hs hm hbound
  have hlength := length_layout_le hh.tiled fun x hx => (hh.shows x hx).lt_length
  rcases get?_cases h with ⟨cause, hnot, -, -⟩ | ⟨s₁, value, s', hscan', hnext, rfl⟩
  · simp [hscan] at hnot
  obtain rfl := Except.ok.inj (hscan.symm.trans hscan')
  rcases nextWithin_spec (fun _ _ => .refl limit _) hs hw hm ha hlength hnext with
    ⟨rfl, hunread⟩ | ⟨hvalue, -⟩
  · exact Or.inl ⟨rfl, hunread⟩
  · have hself : valuesOf (e.layout m) (some key) (some key) =
        (Entries.value? (e.contents m) key).toList :=
      Entries.between_self (hs.sorted_contents m) key
    rw [hbuffer, List.nil_append, hfirst, hlast, hself] at hvalue
    subst hvalue
    cases Entries.value? (e.contents m) key <;> exact Or.inr rfl

omit [Lossless K] [Lossless V] [Std.IsLinearOrder K] in
theorem run_contains (m : Nat) (key : K) (e : Engine K V) : Act.run (contains m key) e =
    ((Act.run (get? m key) e).1.map Option.isSome, (Act.run (get? m key) e).2) := by
  rw [contains, ← map_eq_pure_bind, Act.run_map]

theorem keeps_contains {r : Except MapError Bool} (h : Act.run (contains m key) e = (r, e')) :
    Keeps limit e e' := by
  rw [run_contains] at h
  obtain ⟨-, rfl⟩ := Prod.mk.inj h
  exact keeps_get? rfl

theorem contains_spec {r : Except MapError Bool} (hs : e.AllHold limit) (hw : e'.Within limit)
    (hm : e.maps[m]? = some state) (h : Act.run (contains m key) e = (r, e')) :
    r = .error (.storage (.io .injected)) ∧ e'.Unread e m ∨
      r = .ok (Entries.value? (e.contents m) key).isSome := by
  rw [run_contains] at h
  rcases hget : Act.run (get? m key) e with ⟨value, e₁⟩
  rw [hget] at h
  obtain ⟨rfl, rfl⟩ := Prod.mk.inj h
  rcases get?_spec hs hw hm hget with ⟨rfl, hunread⟩ | rfl
  · exact Or.inl ⟨rfl, hunread⟩
  · exact Or.inr rfl

/-! ### Open scans -/

omit [Std.IsLinearOrder K] in
theorem keeps_setScan (n : Nat) (s : Scan K V) : Keeps limit e (e.setScan n s) :=
  .of_frame (List.suffix_refl _) rfl rfl rfl rfl

theorem keeps_next {n : Nat} {value : Option (Except MapError V)} (h : e.next n = (value, e')) :
    Keeps limit e e' := by
  unfold next at h
  split at h
  · obtain ⟨-, rfl⟩ := Prod.mk.inj h
    exact .refl limit _
  · rename_i s hs
    rcases hnext : nextWithin (setScan n) e.blocks.length s e with ⟨v, s', e₁⟩
    rw [hnext] at h
    obtain ⟨-, rfl⟩ := Prod.mk.inj h
    exact (keeps_nextWithin (fun _ _ => keeps_setScan n _) hnext).trans (keeps_setScan n _)

omit [Lossless K] [Lossless V] [Std.IsLinearOrder K] in
theorem next_error {n : Nat} {cause : MapError} (h : e.next n = (some (.error cause), e')) :
    ∃ c, cause = .storage c ∧ e'.Missed c := by
  unfold next at h
  split at h
  · simp at h
  · rename_i s hs
    rcases hnext : nextWithin (setScan n) e.blocks.length s e with ⟨v, s', e₁⟩
    rw [hnext] at h
    obtain ⟨rfl, rfl⟩ := Prod.mk.inj h
    obtain ⟨c, hcause, hmissed⟩ := nextWithin_error hnext
    exact ⟨c, hcause, hmissed⟩

/-- An open scan has still to give these values of a map, if nobody else changes the map. -/
def Pending (e : Engine K V) (n m : Nat) (vs : List V) : Prop :=
  ∃ s t, e.scans[n]? = some s ∧ s.Awaits (e.layout m) t ∧
    s.buffer ++ valuesOf t s.first s.last = vs

omit [Lossless K] [Lossless V] [Std.IsLinearOrder K] in
/-- A scan that was just opened has to give the values of its range. -/
theorem openScan_spec (hs : e.AllHold limit) (hm : e.maps[m]? = some state)
    (hbound : ¬ (first.isNone ∧ last.isNone)) : ∃ e', e.openScan m first last = .ok e' ∧
      e'.Pending e.scans.length m ((Entries.between (e.contents m) first last).map (·.2)) := by
  obtain ⟨s, hscan, rfl, rfl, hbuffer, ha⟩ := scan_spec hs hm hbound
  refine ⟨{ e with scans := e.scans ++ [s] }, ?_, s, e.layout m, by simp, ha, ?_⟩
  · rw [openScan, hscan]
    rfl
  · rw [hbuffer]
    rfl

theorem next_spec {n : Nat} {vs : List V} {value : Option (Except MapError V)}
    (hs : e.AllHold limit) (hw : e'.Within limit) (hm : e.maps[m]? = some state)
    (hp : e.Pending n m vs) (h : e.next n = (value, e')) :
    value = some (.error (.storage (.io .injected))) ∧ e'.Unread e m ∨
      value = vs.head?.map .ok ∧ e'.Pending n m vs.tail := by
  obtain ⟨s, t, hget, ha, rfl⟩ := hp
  have hh := hs.holds m state hm
  have hlength := length_layout_le hh.tiled fun x hx => (hh.shows x hx).lt_length
  have hscans := (next_frame n e).2.1
  rw [h] at hscans
  simp only [next, hget] at h
  rcases hnext : nextWithin (setScan n) e.blocks.length s e with ⟨v, s', e₁⟩
  rw [hnext] at h
  obtain ⟨rfl, rfl⟩ := Prod.mk.inj h
  have hw₁ : e₁.Within limit := hw
  rcases nextWithin_spec (fun _ _ => keeps_setScan n _) hs hw₁ hm ha
    (ha.suffix.length_le.trans hlength) hnext with hunread | ⟨hvalue, t', ha', hrest⟩
  · exact Or.inl hunread
  · have hlt : n < e₁.scans.length := by
      rw [setScan, List.length_set] at hscans
      exact hscans ▸ (List.getElem?_eq_some_iff.1 hget).1
    exact Or.inr ⟨hvalue, s', t', by simp [setScan, hlt], ha', hrest⟩

end Engine

end PagedMap
