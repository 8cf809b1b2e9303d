/-!
# Sorted entries

The entries of a block are a list of keys with their values, in ascending order of the keys and
each key once.  Two keys are the same key if each is at most the other.

`Entries.cut` divides a list in two where the weight of the first part reaches a given half.
-/

namespace PagedMap

/-- Entries in ascending order of their keys. -/
abbrev Entries (K V : Type) : Type := List (K × V)

namespace Entries

variable {K V : Type}

section Order

variable [LE K] [DecidableLE K]

/-- The value stored under a key. -/
def value? (es : Entries K V) (key : K) : Option V :=
  (List.find? (fun e => e.1 ≤ key ∧ key ≤ e.1) es).map (·.2)

/-- Stores a value under a key, in place of the value stored before. -/
def insert (key : K) (value : V) : Entries K V → Entries K V
  | [] => [(key, value)]
  | e :: es =>
    if e.1 ≤ key then
      if key ≤ e.1 then (e.1, value) :: es else e :: insert key value es
    else (key, value) :: e :: es

/-- Removes the entry of a key. -/
def erase (es : Entries K V) (key : K) : Entries K V :=
  List.filter (fun e => ¬(e.1 ≤ key ∧ key ≤ e.1)) es

/-- The entries of a list in any order.  Of several with one key the last counts. -/
def ofList (es : List (K × V)) : Entries K V :=
  es.foldl (fun sorted e => insert e.1 e.2 sorted) []

/-- The entries whose keys are neither before `first` nor after `last`, where these are given. -/
def between (es : Entries K V) (first last : Option K) : Entries K V :=
  List.filter (fun e => first.all (· ≤ e.1) ∧ last.all (e.1 ≤ ·)) es

end Order

/-- Goes through a list until the weight of the elements passed is positive and reaches `half`.
Gives the elements passed, the others, and the weight; `passed` is the weight to start from. -/
def cutAt {α : Type} (weight : α → Nat) (half : Nat) : (passed : Nat) → List α →
    List α × List α × Nat
  | passed, [] => ([], [], passed)
  | passed, x :: xs =>
    if 0 < passed ∧ half ≤ passed then ([], x :: xs, passed)
    else
      let (front, back, total) := cutAt weight half (passed + weight x) xs
      (x :: front, back, total)

theorem append_cutAt {α : Type} (weight : α → Nat) (half passed : Nat) (xs : List α) :
    (cutAt weight half passed xs).1 ++ (cutAt weight half passed xs).2.1 = xs := by
  induction xs generalizing passed with
  | nil => rfl
  | cons x xs ih =>
    unfold cutAt
    split
    · rfl
    · simp [ih]

/-- Divides a list into two parts that are not empty, with the weight of the first.  The first
part ends as soon as its weight is positive and reaches `half`; if it would be the whole list, the
last element is the second part.  A list of less than two elements cannot be divided. -/
def cut? {α : Type} (weight : α → Nat) (half : Nat) (xs : List α) :
    Option (List α × List α × Nat) :=
  match cutAt weight half 0 xs with
  | (front, [], total) =>
    match front.getLast? with
    | some last =>
      if front.length = 1 then none else some (front.dropLast, [last], total - weight last)
    | none => none
  | parts => some parts

/-- The two parts make up the list. -/
theorem append_of_cut? {α : Type} {weight : α → Nat} {half total : Nat} {xs front back : List α}
    (h : cut? weight half xs = some (front, back, total)) : front ++ back = xs := by
  have happ := append_cutAt weight half 0 xs
  unfold cut? at h
  split at h
  · rename_i whole _ hcut
    simp only [hcut, List.append_nil] at happ
    subst happ
    split at h
    · rename_i last hlast
      split at h
      · simp at h
      · simp only [Option.some.injEq, Prod.mk.injEq] at h
        obtain ⟨rfl, rfl, -⟩ := h
        obtain ⟨front, rfl⟩ := List.getLast?_eq_some_iff.1 hlast
        simp
    · simp at h
  · simp only [Option.some.injEq] at h
    simpa [h] using happ

end Entries

end PagedMap
