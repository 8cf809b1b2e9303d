import Mathlib
import PagedMap.Proofs.Order
import PagedMap.Proofs.Session
import PagedMap.Proofs.Tracking

/-!
# Scans between other requests

The steps of an open scan and any other requests are served in turns.  What the scan gives
(`Engine.Scanned`) is said of the places in the list of requests: the `i`-th request asks the scan
for a value (`Engine.Gives`), and the map had its contents after the first `j` requests
(`Engine.contentsAfter`), the start of the scan being `j = 0`.
-/

namespace PagedMap

variable {K V : Type}

namespace Engine

variable [Wire K] [Wire V] [LE K] [DecidableLE K] [Sized K] [Sized V]

/-! ### Whole scans -/

/-- The contents of a map after the first `i` requests of a list. -/
def contentsAfter (e : Engine K V) (m : Nat) (qs : List (Request K V)) (i : Nat) : Entries K V :=
  (e.serveAll (qs.take i)).2.contents m

/-- The request at a place of a list asks a scan for a value, and this is the answer. -/
def Gives (n : Nat) (qs : List (Request K V)) (as : List (Answer K V)) (i : Nat)
    (value : Option V) : Prop :=
  qs[i]? = some (.next n) ∧ as[i]? = some (.value value)

/-- What a scan gives while the map changes: always a value, or that there are no more.  Every value
is one that a key of the range had since the scan was opened.  The keys ascend, so that none comes
twice.  When there are no more values, that of every key of the range that was there all the time
was given. -/
structure Scanned (e : Engine K V) (m n : Nat) (first last : Option K) (qs : List (Request K V))
    (as : List (Answer K V)) (key : Nat → K) : Prop where
  answered : ∀ i : Nat, qs[i]? = some (.next n) → ∃ value, as[i]? = some (.value value)
  given : ∀ i v, Gives n qs as i (some v) → InRange first last (key i) ∧
    ∃ j ≤ i, Entries.value? (e.contentsAfter m qs j) (key i) = some v
  ascending : ∀ i j v w, i < j → Gives n qs as i (some v) → Gives n qs as j (some w) →
    ¬ key j ≤ key i
  complete : ∀ i, Gives n qs as i none → ∀ k, InRange first last k →
    (∀ j ≤ i, (Entries.value? (e.contentsAfter m qs j) k).isSome = true) →
      ∃ j < i, (∃ v, Gives n qs as j (some v)) ∧ key j = k

variable {e e' : Engine K V} {m n : Nat} {limit : Option Nat} {first last : Option K}
  {q : Request K V} {a : Answer K V} {qs : List (Request K V)} {as : List (Answer K V)}
  {key key' : Nat → K}

omit [Wire K] [Wire V] [LE K] [DecidableLE K] [Sized K] [Sized V] in
theorem gives_append_singleton {i : Nat} {value : Option V} (hlength : as.length = qs.length) :
    Gives n (qs ++ [q]) (as ++ [a]) i value ↔
      i < qs.length ∧ Gives n qs as i value ∨ i = qs.length ∧ q = .next n ∧ a = .value value := by
  rw [Gives, getElem?_append_singleton, getElem?_append_singleton, hlength]
  by_cases hi : i = qs.length
  · simp [hi]
  · rw [if_neg hi, if_neg hi, or_iff_left (by simp [hi]), Gives, iff_and_self]
    exact fun h => (List.getElem?_eq_some_iff.1 h.1).1

theorem contentsAfter_append_singleton {i : Nat} (hi : i ≤ qs.length) :
    e.contentsAfter m (qs ++ [q]) i = e.contentsAfter m qs i := by
  rw [contentsAfter, contentsAfter, List.take_append_of_le_length hi]

theorem Scanned.append (h : e.Scanned m n first last qs as key) (hlength : as.length = qs.length)
    (hkey : ∀ i < qs.length, key' i = key i) (hanswered : q = .next n → ∃ value, a = .value value)
    (hgiven : ∀ v, q = .next n → a = .value (some v) → InRange first last (key' qs.length) ∧
      ∃ j ≤ qs.length, Entries.value? (e.contentsAfter m qs j) (key' qs.length) = some v)
    (hbehind : ∀ v, q = .next n → a = .value (some v) →
      ∀ i w, Gives n qs as i (some w) → ¬ key' qs.length ≤ key i)
    (hcomplete : q = .next n → a = .value none → ∀ k, InRange first last k →
      (∀ j ≤ qs.length, (Entries.value? (e.contentsAfter m qs j) k).isSome = true) →
        ∃ j < qs.length, (∃ v, Gives n qs as j (some v)) ∧ key j = k) :
    e.Scanned m n first last (qs ++ [q]) (as ++ [a]) key' := by
  constructor
  · intro i hi
    rw [getElem?_append_singleton] at hi ⊢
    rw [hlength]
    split at hi
    · rename_i heq
      obtain ⟨value, rfl⟩ := hanswered (Option.some.inj hi)
      exact ⟨value, by rw [if_pos heq]⟩
    · rename_i hne
      rw [if_neg hne]
      exact h.answered i hi
  · intro i v hi
    rcases (gives_append_singleton hlength).1 hi with ⟨hlt, hi⟩ | ⟨rfl, hq, ha⟩
    · obtain ⟨hrange, j, hj, hvalue⟩ := h.given i v hi
      rw [hkey i hlt]
      exact ⟨hrange, j, hj, by rwa [contentsAfter_append_singleton (hj.trans hlt.le)]⟩
    · obtain ⟨hrange, j, hj, hvalue⟩ := hgiven v hq ha
      exact ⟨hrange, j, hj, by rwa [contentsAfter_append_singleton hj]⟩
  · intro i j v w hij hi hj
    rcases (gives_append_singleton hlength).1 hi with ⟨hilt, hi⟩ | ⟨rfl, -⟩
    · rw [hkey i hilt]
      rcases (gives_append_singleton hlength).1 hj with ⟨hjlt, hj⟩ | ⟨rfl, hq, ha⟩
      · rw [hkey j hjlt]
        exact h.ascending i j v w hij hi hj
      · exact hbehind w hq ha i v hi
    · -- nothing comes behind the request that was added
      rcases (gives_append_singleton hlength).1 hj with ⟨hjlt, -⟩ | ⟨rfl, -⟩
      · omega
      · omega
  · intro i hi k hrange hlasting
    have hle : i ≤ qs.length := by
      rcases (gives_append_singleton hlength).1 hi with ⟨hlt, -⟩ | ⟨heq, -⟩ <;> omega
    have hsame : ∀ j ≤ i, (Entries.value? (e.contentsAfter m qs j) k).isSome = true := by
      intro j hj
      have hstays := hlasting j hj
      rwa [contentsAfter_append_singleton (hj.trans hle)] at hstays
    obtain ⟨j, hj, ⟨v, hv⟩, hk⟩ : ∃ j < i, (∃ v, Gives n qs as j (some v)) ∧ key j = k := by
      rcases (gives_append_singleton hlength).1 hi with ⟨-, hi⟩ | ⟨rfl, hq, ha⟩
      · exact h.complete i hi k hrange hsame
      · exact hcomplete hq ha k hrange hsame
    refine ⟨j, hj, ⟨v, (gives_append_singleton hlength).2 (Or.inl ⟨by omega, hv⟩)⟩, ?_⟩
    rw [hkey j (by omega), hk]

/-- The keys whose values a scan gave. -/
def givenKeys (n : Nat) (qs : List (Request K V)) (as : List (Answer K V)) (key : Nat → K) :
    Set K :=
  {k | ∃ i, (∃ v, Gives n qs as i (some v)) ∧ key i = k}

omit [Wire K] [Wire V] [LE K] [DecidableLE K] [Sized K] [Sized V] in
theorem givenKeys_append_singleton (hlength : as.length = qs.length)
    (ha : ∀ v, q = .next n → a ≠ .value (some v)) :
    givenKeys n (qs ++ [q]) (as ++ [a]) key = givenKeys n qs as key := by
  ext k
  constructor
  · rintro ⟨i, ⟨v, hv⟩, hk⟩
    rcases (gives_append_singleton hlength).1 hv with ⟨-, hv⟩ | ⟨-, hq, hvalue⟩
    · exact ⟨i, ⟨v, hv⟩, hk⟩
    · exact absurd hvalue (ha v hq)
  · rintro ⟨i, ⟨v, hv⟩, hk⟩
    have hlt := (List.getElem?_eq_some_iff.1 hv.1).1
    exact ⟨i, ⟨v, (gives_append_singleton hlength).2 (Or.inl ⟨hlt, hv⟩)⟩, hk⟩

omit [Wire K] [Wire V] [LE K] [DecidableLE K] [Sized K] [Sized V] in
theorem givenKeys_append_next {v : V} (hlength : as.length = qs.length)
    (hkey : ∀ i < qs.length, key' i = key i) :
    givenKeys n (qs ++ [.next n]) (as ++ [.value (some v)]) key' =
      insert (key' qs.length) (givenKeys n qs as key) := by
  ext k
  constructor
  · rintro ⟨i, ⟨w, hw⟩, hk⟩
    rcases (gives_append_singleton hlength).1 hw with ⟨hlt, hw⟩ | ⟨rfl, -⟩
    · exact Or.inr ⟨i, ⟨w, hw⟩, (hkey i hlt).symm.trans hk⟩
    · exact Or.inl hk.symm
  · rintro (rfl | ⟨i, ⟨w, hw⟩, rfl⟩)
    · exact ⟨_, ⟨v, (gives_append_singleton hlength).2 (Or.inr ⟨rfl, rfl, rfl⟩)⟩, rfl⟩
    · have hlt := (List.getElem?_eq_some_iff.1 hw.1).1
      exact ⟨i, ⟨w, (gives_append_singleton hlength).2 (Or.inl ⟨hlt, hw⟩)⟩, hkey i hlt⟩

/-- The contents of a map since the first request of a list. -/
def since (e : Engine K V) (m : Nat) (qs : List (Request K V)) : Set (Entries K V) :=
  {es | ∃ i ≤ qs.length, e.contentsAfter m qs i = es}

theorem since_subset_append (e : Engine K V) (m : Nat) (qs : List (Request K V)) (q : Request K V) :
    e.since m qs ⊆ e.since m (qs ++ [q]) := by
  rintro es ⟨i, hi, rfl⟩
  exact ⟨i, by simp; omega, contentsAfter_append_singleton hi⟩

theorem mem_since (hrun : e.serveAll qs = (as, e')) : e'.contents m ∈ e.since m qs := by
  refine ⟨qs.length, le_rfl, ?_⟩
  rw [contentsAfter, List.take_length, hrun]

/-- While requests were served, the scan has given what it should, the values of the keys `seen`,
and it goes on through what the map has become. -/
structure Follows (e e' : Engine K V) (m n : Nat) (first last : Option K) (qs : List (Request K V))
    (as : List (Answer K V)) (key : Nat → K) (seen : List K) : Prop where
  scanned : e.Scanned m n first last qs as key
  mem_seen : ∀ k, k ∈ seen ↔ k ∈ givenKeys n qs as key
  traces : e'.Traces n m first last (e.since m qs) seen

variable {e₁ : Engine K V} {seen seen' : List K}

theorem Follows.next {v : Option V} (h : e.Follows e₁ m n first last qs as key seen)
    (hlength : as.length = qs.length)
    (htraces : e'.Traces n m first last (e.since m (qs ++ [.next n])) seen')
    (hyields : Scan.Yields first last (e.since m qs) seen v seen') :
    ∃ key', e.Follows e' m n first last (qs ++ [.next n]) (as ++ [.value v]) key' seen' := by
  cases hyields with
  | done hdone =>
    refine ⟨key,
      h.scanned.append hlength (fun _ _ => rfl) (fun _ => ⟨none, rfl⟩) (by simp) (by simp)
      fun _ _ k hk hstays => ?_, fun k => ?_, htraces⟩
    · have hlasting : ∀ es ∈ e.since m qs, (Entries.value? es k).isSome = true := by
        rintro es ⟨j, hj, rfl⟩
        exact hstays j hj
      obtain ⟨i, ⟨v, hv⟩, hki⟩ := (h.mem_seen k).1 (hdone k hk hlasting)
      exact ⟨i, (List.getElem?_eq_some_iff.1 hv.1).1, ⟨v, hv⟩, hki⟩
    · rw [h.mem_seen, givenKeys_append_singleton hlength (by simp)]
  | @value k v hrange htold hbehind =>
    obtain ⟨es, ⟨j, hj, rfl⟩, hvalue⟩ := htold
    have hkey : ∀ i < qs.length, Function.update key qs.length k i = key i := fun i hi =>
      Function.update_of_ne hi.ne _ _
    have hnew : Function.update key qs.length k qs.length = k := Function.update_self _ _ _
    refine ⟨Function.update key qs.length k, h.scanned.append hlength hkey (fun _ => ⟨some v, rfl⟩)
      (fun w _ hw => ?_) (fun w _ _ i u hi => ?_) (by simp), fun k' => ?_, htraces⟩
    · obtain rfl : v = w := by simpa using hw
      rw [hnew]
      exact ⟨hrange, j, hj, hvalue⟩
    · rw [hnew]
      exact hbehind _ ((h.mem_seen _).2 ⟨i, ⟨u, hi⟩, rfl⟩)
    · rw [givenKeys_append_next hlength hkey, hnew, Set.mem_insert_iff, List.mem_append, h.mem_seen,
        List.mem_singleton, or_comm]

theorem Follows.other (h : e.Follows e₁ m n first last qs as key seen)
    (hlength : as.length = qs.length) (hq : q ≠ .next n)
    (htraces : e'.Traces n m first last (e.since m (qs ++ [q])) seen) :
    e.Follows e' m n first last (qs ++ [q]) (as ++ [a]) key seen := by
  refine ⟨h.scanned.append hlength (fun _ _ => rfl) (fun h => absurd h hq) (fun _ h => absurd h hq)
    (fun _ h => absurd h hq) (fun h => absurd h hq), fun k => ?_, htraces⟩
  rw [h.mem_seen, givenKeys_append_singleton hlength fun v h => absurd h hq]

variable [Lossless K] [Lossless V] [Std.IsLinearOrder K]

/-- From where a scan has given nothing, it gives what it should while any requests are served. -/
theorem Traces.serveAll (k₀ : K) (h : e.Traces n m first last {e.contents m} [])
    (hs : e.AllHold limit) (hm : m < e.maps.length)
    (hqs : ∀ q ∈ qs, q ≠ .clear m ∧ q ≠ .drop m ∧ q ≠ .closeScan n)
    (hrun : e.serveAll qs = (as, e')) (hw : e'.Within limit) (hun : Undisturbed e e') :
    e'.AllHold limit ∧ m < e'.maps.length ∧
      ∃ key seen, e.Follows e' m n first last qs as key seen := by
  induction qs using List.reverseRecOn generalizing as e' with
  | nil =>
    obtain ⟨rfl, rfl⟩ := Prod.mk.inj hrun
    refine ⟨hs, hm, fun _ => k₀, [], ⟨?_, ?_, ?_, ?_⟩, ?_, h.mono ?_ (mem_since rfl)⟩
    · simp
    · simp [Gives]
    · simp [Gives]
    · simp [Gives]
    · simp [givenKeys, Gives]
    · rintro es rfl
      exact mem_since rfl
  | append_singleton qs q ih =>
    rcases hfirst : e.serveAll qs with ⟨as₁, e₁⟩
    rcases hserve : e₁.serve q with ⟨a, e₂⟩
    have hall := hrun
    rw [serveAll_append_singleton, hfirst] at hrun
    simp only [hserve, Prod.mk.injEq] at hrun
    obtain ⟨rfl, rfl⟩ := hrun
    have hsuffix := suffix_serve hserve
    obtain ⟨hun₁, hun₂⟩ := hun.split (suffix_serveAll hfirst) hsuffix
    obtain ⟨hs₁, hm₁, key, seen, hfollows⟩ :=
      ih (fun q hq => hqs q (by simp [hq])) hfirst (hw.of_suffix hsuffix) hun₁
    have hserved := serve_spec hs₁ hw hserve
    have hlength : as₁.length = qs.length := by
      have hlen := length_serveAll e qs
      rwa [hfirst] at hlen
    have hsince := since_subset_append e m qs q
    obtain ⟨hclear, hdrop, hclose⟩ := hqs q (by simp)
    refine ⟨hserved.allHold, hm₁.trans_le hserved.length_le, ?_⟩
    by_cases hnext : q = .next n
    · subst hnext
      obtain ⟨v, seen', rfl, htraces, hyields⟩ :=
        hfollows.traces.serve_next hs₁ hw hm₁ hserve hun₂ (mem_since hfirst) hsince
      obtain ⟨key', hfollows'⟩ := hfollows.next hlength htraces hyields
      exact ⟨key', seen', hfollows'⟩
    · have htraces := hfollows.traces.serve hs₁ hw hserve hclear hdrop hclose hnext hsince
        (mem_since hall)
      exact ⟨key, seen, hfollows.other hlength hnext htraces⟩

end Engine

namespace Session

variable [Wire K] [Wire V] [LE K] [DecidableLE K] [Std.IsLinearOrder K] [Sized K] [Sized V]
  [Lossless K] [Lossless V]

variable {limit : Option Nat} {m : Nat} {first last : Option K} {policies : List (Policy BlockRef)}
  {store : Store K V} {volume : Volume} {before : List (Command K V)} {s : Session K V}
  {qs : List (Request K V)} {a : Answer K V} {as : List (Answer K V)} {e e' : Engine K V}

/-- In every state that a session comes to, a scan over a range with a bound can be opened.
Whatever is requested between its steps, as long as its map is neither cleared nor dropped, the scan
is not closed and no call of the page store fails, the scan gives a value of every key of the range
that is there from its start to its end, in the order of the keys and none twice, and every value is
one that its key had since the scan was opened.  If a value tells its key, this is the key. -/
theorem scanned_run (hready : store.Ready limit volume)
    (hrun : (start policies store volume).run before = s) (hm : m < s.engine.maps.length)
    (hbound : ¬ (first.isNone ∧ last.isNone))
    (hopen : s.engine.serve (.openScan m first last) = (a, e))
    (hqs : ∀ q ∈ qs, q ≠ .clear m ∧ q ≠ .drop m ∧ q ≠ .closeScan s.engine.scans.length)
    (hserve : e.serveAll qs = (as, e')) (hw : e'.Within limit) (hun : Engine.Undisturbed e e') :
    a = .done ∧ ∃ key : Nat → K, e.Scanned m s.engine.scans.length first last qs as key ∧
      ∀ f : V → K, (∀ i ≤ qs.length, ∀ entry ∈ e.contentsAfter m qs i, f entry.2 = entry.1) →
        ∀ i v, Engine.Gives s.engine.scans.length qs as i (some v) → key i = f v := by
  subst hrun
  set e₀ := ((start policies store volume).run before).engine with he₀
  have hw₁ : e.Within limit := hw.of_suffix (Engine.suffix_serveAll hserve)
  have hs := (goes_run (documented_start hready)
    (hw₁.of_suffix (Engine.suffix_serve hopen))).documented.engine
  have hserved := Engine.serve_spec hs hw₁ hopen
  obtain ⟨sc, hscan, htracked⟩ := Engine.tracked_scan hs (List.getElem?_eq_getElem hm) hbound
  obtain ⟨rfl, rfl⟩ : a = .done ∧ e = { e₀ with scans := e₀.scans ++ [sc] } := by
    rw [Engine.serve, if_pos (by simpa [Request.target?] using hm), Engine.perform, Engine.openScan,
      hscan] at hopen
    exact ⟨(Prod.mk.inj hopen).1.symm, (Prod.mk.inj hopen).2.symm⟩
  refine ⟨rfl, ?_⟩
  have htraces : Engine.Traces { e₀ with scans := e₀.scans ++ [sc] } e₀.scans.length m first last
      {Engine.contents { e₀ with scans := e₀.scans ++ [sc] } m} [] := ⟨sc, by simp, htracked⟩
  obtain ⟨k₀⟩ : Nonempty K := by
    rcases first with _ | k
    · rcases last with _ | k
      · simp at hbound
      · exact ⟨k⟩
    · exact ⟨k⟩
  obtain ⟨-, -, key, seen, hscanned, -, -⟩ :=
    htraces.serveAll k₀ hserved.allHold hm hqs hserve hw hun
  refine ⟨key, hscanned, fun f hf i v hi => ?_⟩
  obtain ⟨-, j, hj, hvalue⟩ := hscanned.given i v hi
  have hlt := (List.getElem?_eq_some_iff.1 hi.1).1
  exact (hf j (by omega) _ (Entries.mem_of_value?_eq_some hvalue)).symm

/-- Blocks ahead of a scan and behind it are split, and a key ahead of it gets another value: the
scan gives the keys that were there when it was opened, and one that came in ahead of it. -/
theorem scanned_run_split :
    let sizing : Sizing := { maxBlockSize := 12, entryOverhead := 2, blockOverhead := 0 }
    let before : List (Command (Shape.uint .w8).Datum (Shape.uint .w8).Datum) :=
      [.request (.make sizing 0), .request (.put 0 2#8 0x12#8), .request (.put 0 4#8 0x14#8),
        .request (.put 0 6#8 0x16#8), .request (.put 0 8#8 0x18#8), .request (.put 0 1#8 0x11#8)]
    let qs : List (Request (Shape.uint .w8).Datum (Shape.uint .w8).Datum) :=
      [.next 0, .put 0 3#8 0x13#8, .next 0, .put 0 7#8 0x17#8, .put 0 9#8 0x19#8, .put 0 6#8 0x26#8,
        .next 0, .remove 0 2#8, .next 0, .remove 0 9#8, .checkpoint 0, .put 0 5#8 0x15#8, .next 0,
        .next 0]
    let s := (start [.clock (.empty 1)] .inMemory {}).run before
    let opened := s.engine.serve (.openScan 0 (some 2#8) none)
    let served := opened.2.serveAll qs
    ∃ key, opened.2.Scanned 0 0 (some 2#8) none qs served.1 key ∧
      [0, 2, 6, 8, 12].map key = [2#8, 4#8, 6#8, 7#8, 8#8] ∧
      Engine.Gives 0 qs served.1 13 none := by
  intro sizing before qs s opened served
  have hm : 0 < s.engine.maps.length := by decide +kernel
  have hscans : s.engine.scans.length = 0 := by decide +kernel
  have hloads : served.2.refusedLoads = opened.2.refusedLoads := by decide +kernel
  have hcreations : served.2.failedCreations = opened.2.failedCreations := by decide +kernel
  have htold : ∀ i ≤ 14, ∀ entry ∈ opened.2.contentsAfter 0 qs i,
      @id (BitVec 8) entry.2 &&& 0x0f#8 = @id (BitVec 8) entry.1 := by decide +kernel
  let gives : List (Nat × Option (Shape.uint .w8).Datum) :=
    [(0, some 0x12#8), (2, some 0x14#8), (6, some 0x26#8), (8, some 0x17#8), (12, some 0x18#8),
      (13, none)]
  have hasked : ∀ given ∈ gives, qs[given.1]? = some (.next 0) := by simp [gives, qs]
  have hanswers : ∀ given ∈ gives, served.1[given.1]? = some (.value given.2) := by decide +kernel
  have hready : (Store.inMemory (K := (Shape.uint .w8).Datum) (V := (Shape.uint .w8).Datum)).Ready
      none {} := trivial
  have hrun : (start [.clock (.empty 1)] .inMemory {}).run before = s := rfl
  have hopen : s.engine.serve (.openScan 0 (some 2#8) none) = (opened.1, opened.2) :=
    Prod.mk.eta.symm
  have hserve : opened.2.serveAll qs = (served.1, served.2) := Prod.mk.eta.symm
  clear_value s opened served
  have hw : served.2.Within none := Engine.within_none _
  obtain ⟨-, key, hscanned, hkeys⟩ :=
    scanned_run hready hrun hm (by simp) hopen (by simp [qs]) hserve hw ⟨hloads, hcreations⟩
  rw [hscans] at hscanned hkeys
  have hgives (given) (h : given ∈ gives) : Engine.Gives 0 qs served.1 given.1 given.2 :=
    ⟨hasked given h, hanswers given h⟩
  have hkey (i : Nat) (v : (Shape.uint .w8).Datum) (h : (i, some v) ∈ gives) :
      key i = @id (BitVec 8) v &&& 0x0f#8 :=
    hkeys (fun v => @id (BitVec 8) v &&& 0x0f#8) htold i v (hgives _ h)
  refine ⟨key, hscanned, ?_, hgives (13, none) (by simp [gives])⟩
  rw [List.map_cons, List.map_cons, List.map_cons, List.map_cons, List.map_cons, List.map_nil,
    hkey 0 0x12#8 (by simp [gives]), hkey 2 0x14#8 (by simp [gives]),
    hkey 6 0x26#8 (by simp [gives]), hkey 8 0x17#8 (by simp [gives]),
    hkey 12 0x18#8 (by simp [gives])]
  rfl

end Session

end PagedMap
