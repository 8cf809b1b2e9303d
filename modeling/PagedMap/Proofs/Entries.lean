import Mathlib
import PagedMap.Entries

/-!
# Sorted entries as a map

The entries of a block, and those of a whole map, are a list in strictly ascending order of the
keys (`Entries.Sorted`).  Storing and removing keep the order, and a list that is cut where all
keys before the cut are smaller than a key, or all keys behind it are greater, is read and changed
at that key in one of the parts only (`value?_append_right`, `insert_append_left` and so on).
-/

namespace PagedMap.Entries

variable {K V : Type} [LE K] [DecidableLE K]

/-- The keys ascend strictly. -/
def Sorted (es : Entries K V) : Prop := es.Pairwise fun a b => ¬ b.1 ≤ a.1

variable {es front back : Entries K V} {key : K} {value : V}

omit [DecidableLE K] in
theorem sorted_append : (front ++ back : Entries K V).Sorted ↔
    front.Sorted ∧ back.Sorted ∧ ∀ a ∈ front, ∀ b ∈ back, ¬ b.1 ≤ a.1 :=
  List.pairwise_append

/-! ### Cut lists -/

theorem value?_append (front back : Entries K V) (key : K) :
    value? (front ++ back) key = (value? front key).or (value? back key) := by
  rw [value?, List.find?_append, Option.map_or, value?, value?]

theorem value?_append_right (h : ∀ e ∈ front, ¬ key ≤ e.1) :
    value? (front ++ back) key = value? back key := by
  have hnone : front.find? (fun e => decide (e.1 ≤ key ∧ key ≤ e.1)) = none := by
    simp only [List.find?_eq_none, decide_eq_true_eq, not_and]
    exact fun e he _ => h e he
  rw [value?, List.find?_append, hnone, Option.none_or, value?]

theorem value?_append_left (h : ∀ e ∈ back, ¬ e.1 ≤ key) :
    value? (front ++ back) key = value? front key := by
  have hnone : back.find? (fun e => decide (e.1 ≤ key ∧ key ≤ e.1)) = none := by
    simp only [List.find?_eq_none, decide_eq_true_eq, not_and]
    exact fun e he hle => absurd hle (h e he)
  rw [value?, List.find?_append, hnone, Option.or_none, value?]

theorem value?_eq_none (h : ∀ e ∈ es, e.1 ≤ key → ¬ key ≤ e.1) : value? es key = none := by
  simp only [value?, Option.map_eq_none_iff, List.find?_eq_none, decide_eq_true_eq, not_and]
  exact h

theorem insert_append_left (h : ∀ e ∈ back, ¬ e.1 ≤ key) :
    insert key value (front ++ back) = insert key value front ++ back := by
  induction front with
  | nil =>
    cases back with
    | nil => rfl
    | cons b back => simp [insert, h b (by simp)]
  | cons a front ih =>
    simp only [List.cons_append, insert]
    split
    · split
      · rfl
      · rw [ih]; rfl
    · rfl

theorem erase_append : erase (front ++ back) key = erase front key ++ erase back key :=
  List.filter_append ..

theorem erase_eq_self (h : ∀ e ∈ es, e.1 ≤ key → ¬ key ≤ e.1) : erase es key = es := by
  rw [erase, List.filter_eq_self]
  intro e he
  simp only [decide_eq_true_eq, not_and]
  exact h e he

theorem erase_of_value?_eq_none (h : value? es key = none) : erase es key = es := by
  simp only [value?, Option.map_eq_none_iff, List.find?_eq_none, decide_eq_true_eq, not_and] at h
  exact erase_eq_self h

theorem between_append (first last : Option K) :
    between (front ++ back) first last = between front first last ++ between back first last :=
  List.filter_append ..

theorem mem_between {first last : Option K} {e : K × V} :
    e ∈ between es first last ↔ e ∈ es ∧ (∀ k ∈ first, k ≤ e.1) ∧ ∀ k ∈ last, e.1 ≤ k := by
  cases first <;> cases last <;> simp [between]

/-! ### Storing and removing -/

theorem mem_insert [Std.IsLinearOrder K] {e : K × V} (h : e ∈ insert key value es) :
    e = (key, value) ∨ e ∈ es := by
  induction es with
  | nil => simpa [insert] using h
  | cons a es ih =>
    unfold insert at h
    split at h
    · split at h
      · rename_i hak hka
        rcases List.mem_cons.1 h with rfl | h
        · exact Or.inl (by rw [Std.le_antisymm hak hka])
        · exact Or.inr (List.mem_cons_of_mem _ h)
      · rcases List.mem_cons.1 h with rfl | h
        · exact Or.inr (by simp)
        · exact (ih h).imp id (List.mem_cons_of_mem _)
    · rcases List.mem_cons.1 h with rfl | h
      · exact Or.inl rfl
      · exact Or.inr h

theorem Sorted.erase (h : es.Sorted) : (es.erase key).Sorted := List.Pairwise.filter _ h

variable [Std.IsLinearOrder K]

theorem insert_append_right (h : ∀ e ∈ front, ¬ key ≤ e.1) :
    insert key value (front ++ back) = front ++ insert key value back := by
  induction front with
  | nil => rfl
  | cons a front ih =>
    have ha : ¬ key ≤ a.1 := h a (by simp)
    have hle : a.1 ≤ key := by grind
    simp [insert, ha, hle, ih fun e he => h e (by simp [he])]

theorem Sorted.insert (h : es.Sorted) : (es.insert key value).Sorted := by
  induction es with
  | nil => exact List.pairwise_singleton ..
  | cons a es ih =>
    obtain ⟨ha, hes⟩ := List.pairwise_cons.1 h
    unfold Entries.insert
    split
    · split
      · exact List.pairwise_cons.2 ⟨ha, hes⟩
      · rename_i hka
        refine List.pairwise_cons.2 ⟨fun b hb => ?_, ih hes⟩
        rcases mem_insert hb with rfl | hb
        · exact hka
        · exact ha b hb
    · rename_i hak
      refine List.pairwise_cons.2 ⟨fun b hb => ?_, h⟩
      rcases List.mem_cons.1 hb with rfl | hb
      · exact hak
      · have := ha b hb
        grind

theorem mem_of_value?_eq_some (h : es.value? key = some value) : (key, value) ∈ es := by
  obtain ⟨e, he, rfl⟩ := Option.map_eq_some_iff.1 h
  have hkey : e.1 ≤ key ∧ key ≤ e.1 := by simpa using List.find?_some he
  obtain rfl : e.1 = key := Std.le_antisymm hkey.1 hkey.2
  exact List.mem_of_find?_eq_some he

theorem value?_eq_some_iff (h : es.Sorted) : es.value? key = some value ↔ (key, value) ∈ es := by
  induction es with
  | nil => simp [value?]
  | cons a es ih =>
    obtain ⟨ha, hes⟩ := List.pairwise_cons.1 h
    by_cases hk : a.1 ≤ key ∧ key ≤ a.1
    · have hkey : a.1 = key := Std.le_antisymm hk.1 hk.2
      have hnot : (key, value) ∉ es := fun hmem => ha _ hmem hk.2
      simp [value?, hnot, Prod.ext_iff, hkey, eq_comm]
    · have hne : (key, value) ≠ a := by
        rintro rfl
        exact hk ⟨Std.le_refl _, Std.le_refl _⟩
      have hval : value? (a :: es) key = value? es key := by
        simp [value?, hk]
      rw [hval, ih hes, List.mem_cons, or_iff_right hne]

/-- A stored value is found under its key, and no other key is affected. -/
theorem value?_insert (es : Entries K V) (key k : K) (value : V) :
    value? (insert key value es) k = if k ≤ key ∧ key ≤ k then some value else value? es k := by
  induction es with
  | nil => by_cases hk : k ≤ key ∧ key ≤ k <;> simp [insert, value?, hk, and_comm]
  | cons a es ih =>
    have hcons (es : Entries K V) :
        value? (a :: es) k = if a.1 ≤ k ∧ k ≤ a.1 then some a.2 else value? es k := by
      by_cases ha : a.1 ≤ k ∧ k ≤ a.1 <;> simp [value?, ha]
    unfold insert
    split
    · split
      · have hkey : a.1 = key := Std.le_antisymm ‹_› ‹_›
        by_cases hk : k ≤ key ∧ key ≤ k <;> simp_all [value?, and_comm]
      · rw [hcons, hcons, ih]
        by_cases ha : a.1 ≤ k ∧ k ≤ a.1
        · have hne : ¬ (k ≤ key ∧ key ≤ k) := fun hk => ‹¬ key ≤ a.1› (Std.le_trans hk.2 ha.2)
          simp [ha, hne]
        · simp [ha]
    · by_cases hk : k ≤ key ∧ key ≤ k
      · simp [value?, hk]
      · have hk' : ¬ (key ≤ k ∧ k ≤ key) := fun h => hk h.symm
        simp [value?, hk, hk']

/-- A removed key has no value, and no other key is affected. -/
theorem value?_erase (es : Entries K V) (key k : K) :
    value? (erase es key) k = if k ≤ key ∧ key ≤ k then none else value? es k := by
  split
  · rename_i hk
    refine value?_eq_none fun e he hle hge => ?_
    have hkept := List.of_mem_filter he
    simp only [decide_eq_true_eq] at hkept
    exact hkept ⟨Std.le_trans hle hk.1, Std.le_trans hk.2 hge⟩
  · rename_i hk
    rw [value?, erase, List.find?_filter, value?]
    congr 2
    funext e
    by_cases he : e.1 ≤ k ∧ k ≤ e.1
    · have hkept : ¬ (e.1 ≤ key ∧ key ≤ e.1) := fun hkey =>
        hk ⟨Std.le_trans he.2 hkey.1, Std.le_trans hkey.2 he.1⟩
      simp [he, hkept]
    · simp [he]

omit [DecidableLE K] in
theorem Sorted.head_le (h : es.Sorted) {a e : K × V} (ha : es.head? = some a) (he : e ∈ es) :
    a.1 ≤ e.1 := by
  obtain ⟨rest, rfl⟩ := List.head?_eq_some_iff.1 ha
  rcases List.mem_cons.1 he with rfl | he
  · exact Std.le_refl _
  · have := (List.pairwise_cons.1 h).1 e he
    grind

omit [DecidableLE K] in
theorem Sorted.le_getLast (h : es.Sorted) {a e : K × V} (ha : es.getLast? = some a)
    (he : e ∈ es) : e.1 ≤ a.1 := by
  obtain ⟨front, rfl⟩ := List.getLast?_eq_some_iff.1 ha
  rcases List.mem_append.1 he with he | he
  · have := (sorted_append.1 h).2.2 e he a (by simp)
    grind
  · obtain rfl := List.mem_singleton.1 he
    exact Std.le_refl _

/-! ### Weights -/

/-- Storing adds the weight of the new entry and takes away that of the old one. -/
theorem sum_insert (weight : K × V → Nat) (h : es.Sorted) :
    ((insert key value es).map weight).sum + ((es.value? key).map fun v => weight (key, v)).getD 0 =
      (es.map weight).sum + weight (key, value) := by
  induction es with
  | nil => simp [insert, value?]
  | cons a es ih =>
    obtain ⟨ha, hes⟩ := List.pairwise_cons.1 h
    unfold insert
    by_cases hak : a.1 ≤ key
    · by_cases hka : key ≤ a.1
      · obtain rfl : a.1 = key := Std.le_antisymm hak hka
        have hval : value? (a :: es) a.1 = some a.2 := by simp [value?]
        rw [hval]
        simp only [hak, if_true, List.map_cons, List.sum_cons, Option.map_some, Option.getD_some,
          Prod.mk.eta]
        omega
      · have hval : value? (a :: es) key = value? es key := by simp [value?, hka]
        rw [hval]
        simp only [hak, hka, if_true, if_false, List.map_cons, List.sum_cons]
        have := ih hes
        omega
    · have hval : value? (a :: es) key = none := by
        refine value?_eq_none fun e he hle => ?_
        rcases List.mem_cons.1 he with rfl | he
        · exact absurd hle hak
        · have := ha e he
          grind
      rw [hval]
      simp [hak]
      omega

theorem sum_erase (weight : K × V → Nat) (h : es.Sorted) (hval : es.value? key = some value) :
    ((erase es key).map weight).sum + weight (key, value) = (es.map weight).sum := by
  induction es with
  | nil => simp [value?] at hval
  | cons a es ih =>
    obtain ⟨ha, hes⟩ := List.pairwise_cons.1 h
    by_cases hk : a.1 ≤ key ∧ key ≤ a.1
    · obtain rfl : a.1 = key := Std.le_antisymm hk.1 hk.2
      have hrest : erase es a.1 = es := erase_eq_self fun e he hle => by
        have := ha e he
        grind
      have hhead : erase (a :: es) a.1 = erase es a.1 := by simp [erase]
      obtain rfl : a.2 = value := by simpa [value?, hk] using hval
      rw [hhead, hrest, List.map_cons, List.sum_cons]
      exact Nat.add_comm _ _
    · have hhead : erase (a :: es) key = a :: erase es key :=
        List.filter_cons_of_pos (by simpa only [decide_eq_true_eq] using hk)
      have htail : value? es key = some value := by simpa [value?, hk] using hval
      have := ih hes htail
      rw [hhead, List.map_cons, List.map_cons, List.sum_cons, List.sum_cons]
      omega

omit [Std.IsLinearOrder K] in
theorem total_of_cutAt {α : Type} (weight : α → Nat) (half passed : Nat) (xs : List α) :
    (cutAt weight half passed xs).2.2 =
      passed + ((cutAt weight half passed xs).1.map weight).sum := by
  induction xs generalizing passed with
  | nil => simp [cutAt]
  | cons x xs ih =>
    unfold cutAt
    split
    · simp
    · simp [ih, Nat.add_assoc]

/-- The weight given with the first part is the weight of the first part. -/
theorem total_of_cut? {α : Type} {weight : α → Nat} {half total : Nat} {xs front back : List α}
    (h : cut? weight half xs = some (front, back, total)) : total = (front.map weight).sum := by
  have htotal := total_of_cutAt weight half 0 xs
  unfold cut? at h
  split at h
  · rename_i whole sum hcut
    rw [hcut] at htotal
    split at h
    · rename_i last hlast
      obtain ⟨front', rfl⟩ := List.getLast?_eq_some_iff.1 hlast
      split at h
      · simp at h
      · simp only [Option.some.injEq, Prod.mk.injEq] at h
        obtain ⟨rfl, -, rfl⟩ := h
        simp at htotal ⊢
        omega
    · simp at h
  · simp only [Option.some.injEq] at h
    rw [h] at htotal
    simpa using htotal

/-! ### Lists in any order -/

theorem sorted_foldl_insert (xs : List (K × V)) (h : es.Sorted) :
    (xs.foldl (fun sorted e => insert e.1 e.2 sorted) es).Sorted := by
  induction xs generalizing es with
  | nil => exact h
  | cons x xs ih => exact ih h.insert

theorem sorted_ofList (xs : List (K × V)) : (ofList xs).Sorted :=
  sorted_foldl_insert xs List.Pairwise.nil

theorem foldl_insert_eq_append (h : (front ++ back).Sorted) :
    back.foldl (fun sorted e => insert e.1 e.2 sorted) front = front ++ back := by
  induction back generalizing front with
  | nil => simp
  | cons b back ih =>
    have hfront : ∀ e ∈ front, ¬ b.1 ≤ e.1 := fun e he => (sorted_append.1 h).2.2 e he b (by simp)
    have hins : insert b.1 b.2 front = front ++ [b] := by
      have hpast : insert b.1 b.2 (front ++ []) = front ++ insert b.1 b.2 [] :=
        insert_append_right hfront
      simpa [Entries.insert] using hpast
    rw [List.foldl_cons, hins, ih (by simpa using h)]
    simp

theorem ofList_eq_self (h : es.Sorted) : ofList es = es := foldl_insert_eq_append h

end PagedMap.Entries
