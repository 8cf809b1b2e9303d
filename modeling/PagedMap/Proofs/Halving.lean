import Mathlib
import PagedMap.Proofs.Sizes

/-!
# How large blocks become

A block that outgrows its budget is split once, where the weight of its first entries reaches half
of its own.  So the lower part weighs less than this half and one more entry, and the upper part
weighs no more than the rest, or is a single entry (`Entries.cut?_le`).

Both parts are within the budget if no entry weighs more than a third of it, and in any case they
weigh less than three budgets (`Engine.weight_serveAll`).  Where entries are as heavy as the budget,
a block may be left that outgrows the budget although it was just split
(`Engine.split_over_budget`).
-/

namespace PagedMap

variable {K V : Type}

/-! ### Where a list is cut -/

namespace Entries

variable {α : Type} {weight : α → Nat} {half passed total w : Nat} {xs front back : List α}

/-- The elements passed weigh less than the half and one element together. -/
theorem cutAt_le (hw : ∀ x ∈ xs, weight x ≤ w) (h : passed ≤ w + (half - 1)) :
    (cutAt weight half passed xs).2.2 ≤ w + (half - 1) := by
  induction xs generalizing passed with
  | nil => exact h
  | cons x xs ih =>
    have hx := hw x List.mem_cons_self
    unfold cutAt
    split
    · exact h
    · rename_i hgo
      exact ih (fun y hy => hw y (List.mem_cons_of_mem _ hy)) (by omega)

/-- If elements are left, those passed weigh the half. -/
theorem le_cutAt (h : (cutAt weight half passed xs).2.1 ≠ []) :
    half ≤ (cutAt weight half passed xs).2.2 := by
  induction xs generalizing passed with
  | nil => exact absurd rfl h
  | cons x xs ih =>
    unfold cutAt at h ⊢
    split at h <;> rename_i hcut
    · rw [if_pos hcut]
      exact hcut.2
    · rw [if_neg hcut]
      exact ih h

/-- A list that begins with weight 0 is not cut before its first element. -/
theorem cutAt_ne_nil (h : xs ≠ []) : (cutAt weight half 0 xs).1 ≠ [] := by
  obtain ⟨x, rest, rfl⟩ := List.exists_cons_of_ne_nil h
  unfold cutAt
  rw [if_neg (by omega)]
  exact List.cons_ne_nil _ _

/-- Where a list is cut, the first part weighs less than the half and one element together, and the
second part is what is missing to the whole, or a single element. -/
theorem cut?_le (h : cut? weight half xs = some (front, back, total))
    (hw : ∀ x ∈ xs, weight x ≤ w) : (front.map weight).sum ≤ w + (half - 1) ∧
      ((back.map weight).sum ≤ w ∨ half + (back.map weight).sum ≤ (xs.map weight).sum) := by
  have htotal := total_of_cut? h
  have happ := append_of_cut? h
  have hle : (cutAt weight half 0 xs).2.2 ≤ w + (half - 1) := cutAt_le hw (Nat.zero_le _)
  have hsum : (xs.map weight).sum = (front.map weight).sum + (back.map weight).sum := by
    rw [← happ, List.map_append, List.sum_append]
  unfold cut? at h
  split at h
  · rename_i whole sum hcut
    rw [hcut] at hle
    dsimp only at hle
    split at h
    · rename_i last hlast
      split at h
      · simp at h
      · simp only [Option.some.injEq, Prod.mk.injEq] at h
        obtain ⟨-, rfl, rfl⟩ := h
        have hlastw : weight last ≤ w := hw last (happ ▸ by simp)
        refine ⟨by omega, Or.inl ?_⟩
        simpa using hlastw
    · simp at h
  · rename_i hnot
    simp only [Option.some.injEq] at h
    have hback : (cutAt weight half 0 xs).2.1 ≠ [] := fun hnil =>
      hnot (cutAt weight half 0 xs).1 (cutAt weight half 0 xs).2.2 (by rw [← hnil])
    have hhalf := le_cutAt hback
    rw [h] at hle hhalf
    dsimp only at hle hhalf
    exact ⟨by omega, Or.inr (by omega)⟩

theorem ne_nil_of_cut? (h : cut? weight half xs = some (front, back, total)) :
    front ≠ [] ∧ back ≠ [] := by
  have happ := append_of_cut? h
  unfold cut? at h
  split at h
  · rename_i whole sum hcut
    split at h
    · rename_i last hlast
      split at h
      · simp at h
      · rename_i hlength
        simp only [Option.some.injEq, Prod.mk.injEq] at h
        obtain ⟨rfl, rfl, -⟩ := h
        obtain ⟨init, rfl⟩ := List.getLast?_eq_some_iff.1 hlast
        refine ⟨fun hnil => hlength ?_, List.cons_ne_nil _ _⟩
        rw [List.dropLast_concat] at hnil
        simp [hnil]
    · simp at h
  · rename_i hnot
    simp only [Option.some.injEq] at h
    have hback : back ≠ [] := by
      rintro rfl
      exact hnot front total h
    refine ⟨?_, hback⟩
    have hfront : (cutAt weight half 0 xs).1 ≠ [] :=
      cutAt_ne_nil (happ ▸ List.append_ne_nil_of_right_ne_nil _ hback)
    rwa [h] at hfront

/-- A list that cannot be cut has at most one element. -/
theorem length_le_of_cut?_eq_none (h : cut? weight half xs = none) : xs.length ≤ 1 := by
  have happ := append_cutAt weight half 0 xs
  unfold cut? at h
  split at h
  · rename_i whole sum hcut
    rw [hcut, List.append_nil] at happ
    dsimp only at happ
    subst happ
    split at h
    · split at h
      · omega
      · simp at h
    · rename_i hlast
      rw [List.getLast?_eq_none_iff] at hlast
      simp [hlast]
  · simp at h

end Entries

/-! ### Blocks -/

namespace Block

variable [Sized K] [Sized V] {b lower upper : Block K V} {id : Nat} {ref : BlockRef} {w : Nat}

theorem length_le_of_split?_eq_none {es : Entries K V} (hes : b.entries = some es)
    (h : b.split? id ref = none) : es.length ≤ 1 := by
  unfold split? at h
  rw [hes] at h
  cases hcut : Entries.cut? b.home.weight (b.size / 2) es with
  | none => exact Entries.length_le_of_cut?_eq_none hcut
  | some parts =>
    obtain ⟨front, back, total⟩ := parts
    obtain ⟨hfront, hback⟩ := Entries.ne_nil_of_cut? hcut
    simp [hcut, List.head?_eq_some_head hfront, List.getLast?_eq_some_getLast hfront,
      List.head?_eq_some_head hback, List.getLast?_eq_some_getLast hback] at h

/-- The recorded size is the weight of the entries, of which none weighs more than `w`, and all
together weigh no more than `c`. -/
structure Light (home : Home) (w c : Nat) (b : Block K V) : Prop where
  home_eq : b.home = home
  exact : b.excess = 0
  entries : ∀ entry ∈ b.held, home.weight entry ≤ w
  total : (b.held.map home.weight).sum ≤ c

variable {home : Home} {c : Nat} {key : K} {value : V}

theorem Light.size_eq (h : b.Light home w c) : b.size = (b.held.map home.weight).sum :=
  h.home_eq ▸ size_eq_of_excess h.exact

/-- A single entry weighs no more than an entry may. -/
theorem Light.of_length_le {c' : Nat} (h : b.Light home w c) (hlength : b.held.length ≤ 1)
    (hw : w ≤ c') : b.Light home w c' := by
  refine ⟨h.home_eq, h.exact, h.entries, ?_⟩
  have hentries := h.entries
  match hheld : b.held with
  | [] => exact Nat.zero_le _
  | [entry] => simpa using (hentries entry (by simp [hheld])).trans hw
  | _ :: _ :: _ => simp [hheld] at hlength

/-- The parts of a block that was within its bound before it took an entry are within it again if
the bound is large enough for three entries. -/
theorem Light.split (h : b.Light home w (c + w)) (hw : w ≤ c) (hthird : 3 * w ≤ c + 3)
    (hsplit : b.split? id ref = some (lower, upper)) :
    lower.Light home w c ∧ upper.Light home w c := by
  have happ := held_append_held hsplit
  have hsize := h.size_eq
  have htotal := h.total
  have hentries := h.entries
  obtain ⟨hlower, hupper⟩ := excess_split h.exact.ge hsplit
  obtain ⟨front, back, total, hcut, a, d, f, g, -, -, -, -, rfl, rfl⟩ := split?_eq_some hsplit
  rw [h.home_eq] at hcut
  -- a part weighs at most half of `c + w` and one entry more, which `hthird` keeps within `c`
  obtain ⟨hfront, hback⟩ := Entries.cut?_le hcut hentries
  rw [← happ] at hentries
  refine ⟨⟨h.home_eq, hlower, fun entry hmem => hentries entry (List.mem_append_left _ hmem), ?_⟩,
    h.home_eq, hupper.trans h.exact,
    fun entry hmem => hentries entry (List.mem_append_right _ hmem), ?_⟩
  · show (front.map home.weight).sum ≤ c
    omega
  · show (back.map home.weight).sum ≤ c
    omega

theorem light_ofEntry (home : Home) (hentry : home.weight (key, value) ≤ w) (hw : w ≤ c) :
    (ofEntry home key value (home.weight (key, value))).Light home w c := by
  refine ⟨rfl, excess_ofEntry home, ?_, ?_⟩
  · simpa [held_ofEntry] using hentry
  · simpa [held_ofEntry] using hentry.trans hw

variable [LE K] [DecidableLE K] [Std.IsLinearOrder K]

theorem Light.insert (h : b.Light home w c) (hb : b.InBounds)
    (hentry : home.weight (key, value) ≤ w) : (b.insert b.held key value).Light home w (c + w) := by
  refine ⟨h.home_eq, (excess_insert hb h.exact.ge).trans h.exact, fun entry hmem => ?_, ?_⟩
  · rcases Entries.mem_insert hmem with rfl | hmem
    · exact hentry
    · exact h.entries entry hmem
  · have hsum : ((Entries.insert key value b.held).map home.weight).sum + _ = _ :=
      Entries.sum_insert home.weight hb.sorted
    have htotal := h.total
    rw [held_insert]
    omega

theorem Light.erase (h : b.Light home w c) (hb : b.InBounds) :
    (b.erase b.held key).Light home w c := by
  have hheld : (b.erase b.held key).held = Entries.erase b.held key := held_erase rfl
  have hhome : (b.erase b.held key).home = b.home := by
    unfold Block.erase
    split <;> rfl
  refine ⟨hhome.trans h.home_eq, (excess_erase hb h.exact.ge).trans h.exact, ?_, ?_⟩
  · rw [hheld]
    exact fun entry hmem => h.entries entry (List.mem_of_mem_filter hmem)
  · rw [hheld]
    exact (List.Sublist.sum_le_sum (List.filter_sublist.map _) (by simp)).trans h.total

end Block

/-! ### Layouts -/

/-- Every block is within the bounds of the weights of its entries and their total. -/
def Layout.Light [Sized K] [Sized V] (home : Home) (w c : Nat) (t : Layout K V) : Prop :=
  ∀ s ∈ t, s.block.Light home w c

namespace Layout

variable [LE K] [DecidableLE K] [Std.IsLinearOrder K] [Sized K] [Sized V]

variable {home : Home} {w c m lastId lastId' : Nat} {t t' : Layout K V} {q : Request K V} {key : K}
  {value : V} {ref : BlockRef}

/-- A put keeps all blocks within their bounds. -/
theorem Light.put (h : t.Light home w c) (ht : t.Tiled lastId) (hbudget : home.budget ≤ c)
    (hentry : home.weight (key, value) ≤ w) (hw : w ≤ c) (hthird : 3 * w ≤ c + 3)
    (hput : Put home ref key value lastId t t' lastId') : t'.Light home w c := by
  unfold Light at h ⊢
  cases hput with
  | plant hkey =>
    rw [List.forall_mem_cons]
    exact ⟨Block.light_ofEntry home hentry hw, h⟩
  | @grow pre post s b hs hpost hb hfits =>
    subst hb
    rw [List.forall_mem_append, List.forall_mem_cons] at h ⊢
    have hgrown := h.2.1.insert (ht.blocks s (by simp)) hentry
    refine ⟨h.1, ?_, h.2.2⟩
    by_cases hover : home.budget < (s.block.insert s.block.held key value).size
    · rw [hgrown.home_eq] at hfits
      exact hgrown.of_length_le (Block.length_le_of_split?_eq_none rfl (hfits hover)) hw
    · refine ⟨hgrown.home_eq, hgrown.exact, hgrown.entries, ?_⟩
      have hsize := hgrown.size_eq
      show ((s.block.insert s.block.held key value).held.map home.weight).sum ≤ c
      omega
  | @split pre post s b lower upper hs hpost hb hover hsplit =>
    subst hb
    rw [List.forall_mem_append, List.forall_mem_cons] at h
    rw [List.forall_mem_append, List.forall_mem_cons, List.forall_mem_cons]
    have hgrown := h.2.1.insert (ht.blocks s (by simp)) hentry
    obtain ⟨hlower, hupper⟩ := hgrown.split hw hthird hsplit
    exact ⟨h.1, hlower, hupper, h.2.2⟩

/-- Every request keeps all blocks within their bounds, if a put stores an entry within its
bound. -/
theorem Light.shift (h : t.Light home w c) (hbudget : home.budget ≤ c)
    (hentry : ∀ key value, q = .put m key value → home.weight (key, value) ≤ home.budget →
      home.weight (key, value) ≤ w) (hw : w ≤ c) (hthird : 3 * w ≤ c + 3)
    (hshift : Shift q m (some home) t t') : t'.Light home w c := by
  cases hshift with
  | stay => exact h
  | put hq hhome hfits ht hhomes href hput =>
    obtain rfl := Option.some.inj hhome
    exact h.put ht hbudget (hentry _ _ hq hfits) hw hthird hput
  | remove hq ht hremoval =>
    cases hremoval with
    | none hkey => exact h
    | @one pre post s hs =>
      unfold Light at h ⊢
      rw [List.forall_mem_append, List.forall_mem_cons] at h ⊢
      exact ⟨h.1, h.2.1.erase (ht.blocks s (by simp)), h.2.2⟩
  | clear hq => exact fun s hs => by simp at hs

omit [Std.IsLinearOrder K] in
/-- The layout of a map that there is not has no blocks. -/
theorem Shift.eq_nil (h : Shift q m none ([] : Layout K V) t') : t' = [] := by
  cases h with
  | stay => rfl
  | put hq hhome => simp at hhome
  | remove hq ht hremoval =>
    generalize hnil : ([] : Layout K V) = t at hremoval
    cases hremoval with
    | none hkey => rfl
    | one hs => simp at hnil
  | clear => rfl

end Layout

/-! ### Runs -/

namespace Engine

variable [Wire K] [Wire V] [LE K] [DecidableLE K] [Std.IsLinearOrder K] [Sized K] [Sized V]
  [Lossless K] [Lossless V]

variable {e e' : Engine K V} {m w : Nat} {state : MapState K} {limit : Option Nat}
  {qs : List (Request K V)} {as : List (Answer K V)} {policies : List (Policy BlockRef)}
  {store : Store K V} {volume : Volume}

/-- While requests are served, the blocks of a map remain within bounds that leave room for its
entries. -/
theorem light_serveAll {c : Nat} (hs : e.AllHold limit) (hempty : e.maps = [])
    (hrun : e.serveAll qs = (as, e')) (hw : e'.Within limit) (hm : e'.maps[m]? = some state)
    (hputs : ∀ key value, .put m key value ∈ qs →
      state.home.weight (key, value) ≤ state.home.budget → state.home.weight (key, value) ≤ w)
    (hbudget : state.home.budget ≤ c) (hwc : w ≤ c) (hthird : 3 * w ≤ c + 3) :
    (e'.layout m).Light state.home w c := by
  have hstep : ∀ q ∈ qs, ∀ (a : Answer K V) (e e' : Engine K V), e.AllHold limit →
      Served limit q a e e' →
      (∀ st, e.maps[m]? = some st → st.home = state.home → (e.layout m).Light state.home w c) →
      ∀ st, e'.maps[m]? = some st → st.home = state.home →
        (e'.layout m).Light state.home w c := by
    intro q hq a e e' hs hserved hlight st hst hhome
    have hshift := hserved.shifts m
    cases hold : e.maps[m]? with
    | none =>
      rw [layout_of_none hold, hold] at hshift
      rw [hshift.eq_nil]
      exact fun s hs => by simp at hs
    | some st' =>
      have hsame : st'.home = st.home := by
        obtain ⟨rest, hrest⟩ := hserved.homes
        have hget := congrArg (·[m]?) hrest
        rw [List.getElem?_append_left (by simpa using (List.getElem?_eq_some_iff.1 hold).1)] at hget
        simpa [hold, hst] using hget
      rw [hold, Option.map_some, hsame, hhome] at hshift
      exact (hlight st' hold (hsame.trans hhome)).shift hbudget
        (fun key value hput hfits => hputs key value (hput ▸ hq) hfits) hwc hthird hshift
  obtain ⟨-, hlight⟩ := serveAll_induct hstep hs (by simp [hempty]) hrun hw
  exact hlight state hm rfl

/-- Let no entry that was put into a map weigh more than `w`.  Then no block of the map weighs more
than its budget, or than three such entries if that is more: whatever entries were stored, replaced
and removed in any order, a block is within its budget if no entry weighs more than a third of it,
and no block ever weighs more than three budgets. -/
theorem weight_serveAll (hready : store.Ready limit volume)
    (hrun : (start policies store volume).serveAll qs = (as, e)) (hw : e.Within limit)
    (hm : e.maps[m]? = some state)
    (hputs : ∀ key value, .put m key value ∈ qs →
      state.home.weight (key, value) ≤ state.home.budget → state.home.weight (key, value) ≤ w) :
    ∀ b ∈ e.layout m,
      (3 * w ≤ state.home.budget + 3 →
        (b.block.held.map state.home.weight).sum ≤ state.home.budget) ∧
      (b.block.held.map state.home.weight).sum ≤ 3 * state.home.budget := by
  intro b hb
  have hs : (start policies store volume).AllHold limit := allHold_start hready
  constructor
  · intro hthird
    by_cases hbudget : w ≤ state.home.budget
    · exact (light_serveAll hs rfl hrun hw hm hputs (Nat.le_refl _) hbudget hthird b hb).total
    · exact (light_serveAll hs rfl hrun hw hm (fun _ _ _ hfits => hfits) (Nat.le_refl _)
        (Nat.le_refl _) (by omega) b hb).total
  · have htotal := (light_serveAll hs rfl hrun hw hm (fun _ _ _ hfits => hfits)
      (c := 3 * state.home.budget) (by omega) (by omega) (by omega) b hb).total
    exact htotal

/-- Entries that weigh a third of the budget or a little more are stored in descending order, in
blocks within the budget. -/
theorem weight_serveAll_thirds :
    let sizing : Sizing := { maxBlockSize := 12, entryOverhead := 2, blockOverhead := 0 }
    let qs : List (Request (Shape.uint .w8).Datum Shape.string.Datum) :=
      [.make sizing 0, .put 0 4#8 "aa", .put 0 3#8 "a", .put 0 2#8 "aa", .put 0 1#8 "aa"]
    let e := ((start [.clock (.empty 2)] .inMemory {}).serveAll qs).2
    (e.layout 0).map (·.block.held.length) = [2, 1, 1] ∧
      ∀ state, e.maps[0]? = some state → 3 * 5 ≤ state.home.budget + 3 ∧
        ∀ b ∈ e.layout 0, (b.block.held.map state.home.weight).sum ≤ state.home.budget := by
  intro sizing qs e
  have hlengths : (e.layout 0).map (·.block.held.length) = [2, 1, 1] := by decide +kernel
  have hhome : (e.maps[0]?).map (·.home) = some ⟨1, 0, 0, 2, 12⟩ := by decide +kernel
  have hready : (Store.inMemory (K := (Shape.uint .w8).Datum) (V := Shape.string.Datum)).Ready
      none {} := trivial
  have hrun : (start [.clock (.empty 2)] .inMemory {}).serveAll qs = (_, e) := Prod.mk.eta.symm
  clear_value e
  have hw : e.Within none := Engine.within_none _
  refine ⟨hlengths, fun state hm => ?_⟩
  rw [hm, Option.map_some] at hhome
  have hputs : ∀ key value, .put 0 key value ∈ qs →
      state.home.weight (key, value) ≤ state.home.budget → state.home.weight (key, value) ≤ 5 := by
    intro key value hmem _
    rw [Option.some.inj hhome]
    simp only [qs, List.mem_cons, List.not_mem_nil, or_false, reduceCtorEq, false_or] at hmem
    rcases hmem with h | h | h | h <;> cases h <;> decide
  have hthird : 3 * 5 ≤ state.home.budget + 3 := by rw [Option.some.inj hhome]
  exact ⟨hthird, fun b hb => (weight_serveAll hready hrun hw hm hputs b hb).1 hthird⟩

/-- An entry as heavy as the budget comes between a light one and a heavy one: the block is split
behind it, and the lower part outgrows the budget. -/
theorem split_over_budget :
    let sizing : Sizing := { maxBlockSize := 10, entryOverhead := 1, blockOverhead := 0 }
    let qs : List (Request (Shape.uint .w8).Datum Shape.bytes.Datum) :=
      [.make sizing 0, .put 0 1#8 [], .put 0 3#8 [0, 0, 0, 0, 0, 0],
        .put 0 2#8 [0, 0, 0, 0, 0, 0, 0, 0]]
    let e := ((start [.clock (.empty 8)] .inMemory {}).serveAll qs).2
    (e.layout 0).map (fun b => b.block.held.map b.block.home.weight) = [[2, 10], [8]] ∧
      (e.maps[0]?).map (·.home.budget) = some 10 := by
  decide +kernel

end Engine

end PagedMap
