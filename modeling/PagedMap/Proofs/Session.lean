import Mathlib
import PagedMap.Proofs.Refinement

/-!
# Sessions

A session is an engine and the snapshots taken so far (`Session`).  Besides requests it knows how a
map is restored from one of these snapshots, and how everything is left behind but the folder of the
page store, which is opened again (`Command`).

Whatever happens in a session, all maps hold their layouts, and every snapshot goes on to describe
the layout it was taken of (`Session.goes_run`).  If every map is restored from snapshots of maps
with at least its overhead (`Session.Admits`), then the recorded size of a block is never less than
the weight of its entries (`Session.Covered.run`).
-/

namespace PagedMap

variable {K V : Type}

/-- A snapshot, and the overhead of the entries of the map it was taken of. -/
structure Saved (K : Type) where
  entryOverhead : Nat
  snapshot : Snapshot K

/-- An engine, and the snapshots taken so far, the first one first. -/
structure Session (K V : Type) where
  engine : Engine K V
  saved : List (Saved K) := []

/-- What can be done in a session. -/
inductive Command (K V : Type) where
  | request (q : Request K V)
  /-- A map is restored from the snapshot of a number. -/
  | boot (m n : Nat)
  /-- The maps are left behind, and the folder of the page store is opened again. -/
  | reopen (policies : List (Policy BlockRef))

/-- The recorded sizes of the blocks are no less than the weights of their entries. -/
def Layout.Covered [Sized K] [Sized V] (t : Layout K V) : Prop := ∀ s ∈ t, 0 ≤ s.block.excess

namespace Engine

/-- The snapshot that a request took, if it took one. -/
def taken (e : Engine K V) : Request K V → Answer K V → List (Saved K)
  | .checkpoint m, .snapshot snapshot =>
    (e.maps[m]?).toList.map fun state => { entryOverhead := state.home.entryOverhead, snapshot }
  | _, _ => []

/-- An engine without maps over the folder of the page store, which is opened again. -/
def reopened (e : Engine K V) (policies : List (Policy BlockRef)) : Option (Engine K V) := do
  let path ← e.stores.head?.bind Store.directory?
  (openFolder path { policies, volume := e.volume, events := e.events }).toOption

end Engine

namespace Session

variable [Wire K] [Wire V] [LE K] [DecidableLE K] [Sized K] [Sized V]

/-- A session without maps and snapshots over one page store. -/
def start (policies : List (Policy BlockRef)) (store : Store K V) (volume : Volume) : Session K V :=
  { engine := .start policies store volume }

/-- Carries out a command.  One that cannot be carried out changes nothing. -/
def step (s : Session K V) : Command K V → Answer K V × Session K V
  | .request q =>
    let (a, e) := s.engine.serve q
    (a, { engine := e, saved := s.saved ++ s.engine.taken q a })
  | .boot m n =>
    match s.engine.maps[m]?, s.saved[n]? with
    | some _, some x => (.done, { s with engine := s.engine.restore m x.snapshot })
    | _, _ => (.missing, s)
  | .reopen policies =>
    match s.engine.reopened policies with
    | some e => (.done, { s with engine := e })
    | none => (.missing, s)

/-- The session after the commands of a list. -/
def run (s : Session K V) (cs : List (Command K V)) : Session K V :=
  cs.foldl (fun s c => (s.step c).2) s

end Session

namespace Engine

variable [Wire K] [Wire V] [LE K] [DecidableLE K]

/-- The snapshot was taken of this layout, with blocks of this overhead. -/
structure Documents (e : Engine K V) (x : Saved K) (t : Layout K V) : Prop where
  tiled : ∃ lastId, t.Tiled lastId
  homes : ∀ s ∈ t, s.block.home.entryOverhead = x.entryOverhead
  describes : e.Describes x.snapshot t

variable {e e' : Engine K V} {x : Saved K} {t : Layout K V} {m : Nat} {state : MapState K}
  {limit : Option Nat} {policies : List (Policy BlockRef)} {q : Request K V} {a : Answer K V}

theorem Documents.mono (h : e.Documents x t)
    (hpages : ∀ page es, e.readPage 0 page = .ok es → e'.readPage 0 page = .ok es) :
    e'.Documents x t :=
  ⟨h.tiled, h.homes, h.describes.mono hpages⟩

/-! ### Snapshots -/

omit [Wire K] [Wire V] [LE K] [DecidableLE K] in
theorem exists_of_mem_taken (h : x ∈ e.taken q a) : ∃ m state, q = .checkpoint m ∧
    a = .snapshot x.snapshot ∧ e.maps[m]? = some state ∧
    x.entryOverhead = state.home.entryOverhead := by
  unfold taken at h
  split at h
  · rename_i m snapshot
    obtain ⟨state, hstate, rfl⟩ := List.mem_map.1 h
    exact ⟨m, state, rfl, rfl, by simpa using hstate, rfl⟩
  · simp at h

omit [Wire K] [Wire V] [LE K] [DecidableLE K] in
theorem taken_checkpoint {snapshot : Snapshot K} (hm : e.maps[m]? = some state) :
    e.taken (.checkpoint m) (.snapshot snapshot) =
      [{ entryOverhead := state.home.entryOverhead, snapshot }] := by
  simp [taken, hm]

/-- A snapshot that was taken documents the layout of its map. -/
theorem Served.documents [Sized K] [Sized V] (h : Served limit q a e e') (hs : e.AllHold limit)
    (hx : x ∈ e.taken q a) : ∃ m, q = .checkpoint m ∧ e'.Documents x (e.layout m) := by
  obtain ⟨m, state, hq, ha, hm, hoverhead⟩ := exists_of_mem_taken hx
  have hh := hs.holds m state hm
  refine ⟨m, hq, ⟨_, hh.tiled⟩, fun s hmem => ?_, h.snapshots m _ hq ha⟩
  rw [hh.homes s hmem, hoverhead]

/-! ### Opening the folder again -/

omit [Wire K] [Wire V] [LE K] [DecidableLE K] in
theorem reopened_eq_some (h : e.reopened policies = some e') :
    ∃ s rest f volume, e.stores = s :: rest ∧ s.directory? = some f.directory ∧
      Folder.openAt e.volume f.directory = .ok (f, volume) ∧
      e' = { policies, stores := [{ backing := .folder f }], volume, events := e.events } := by
  obtain ⟨path, hpath, hopened⟩ := Option.bind_eq_some_iff.1 h
  obtain ⟨s, hs, hdirectory⟩ := Option.bind_eq_some_iff.1 hpath
  obtain ⟨rest, hstores⟩ := List.head?_eq_some_iff.1 hs
  unfold openFolder at hopened
  rcases hopen : Folder.openAt e.volume path with cause | ⟨f, volume⟩
  · simp [hopen, bind, Except.bind, Except.toOption] at hopened
  · have hpath : f.directory = path := by
      unfold Folder.openAt at hopen
      split at hopen
      · exact (congrArg Folder.directory (Prod.mk.inj (Except.ok.inj hopen)).1).symm
      · simp at hopen
    subst hpath
    refine ⟨s, rest, f, volume, hstores, hdirectory, hopen, ?_⟩
    simpa [hopen, bind, Except.bind, Except.toOption, pure, Except.pure,
      addStore] using hopened.symm

omit [Wire K] [Wire V] [LE K] [DecidableLE K] in
theorem events_reopened (h : e.reopened policies = some e') : e'.events = e.events := by
  obtain ⟨s, rest, f, volume, -, -, -, rfl⟩ := reopened_eq_some h
  rfl

omit [LE K] [DecidableLE K] in
/-- The folder that was opened again holds the same pages, and its numbers do not run out
earlier. -/
theorem reopened_spec (hr : e.Roomy limit) (h : e.reopened policies = some e') :
    e'.maps = [] ∧ e'.Roomy limit ∧ ∀ page, e'.readPage 0 page = e.readPage 0 page := by
  obtain ⟨s, rest, f, volume, hstores, hdirectory, hopen, rfl⟩ := reopened_eq_some h
  obtain ⟨s', hstores', hroomy⟩ := hr
  obtain rfl := (List.cons.inj (hstores.symm.trans hstores')).1
  obtain ⟨backing, faults⟩ := s
  cases backing with
  | memory pages => simp [Store.directory?] at hdirectory
  | folder g =>
    obtain ⟨left, hleft, hg⟩ := hroomy
    have hsame : g.directory = f.directory := Option.some.inj hdirectory
    obtain ⟨n, hopen', hroomy'⟩ := hg.reopen
    rw [hsame] at hopen' hroomy'
    obtain ⟨hf, rfl⟩ := Prod.mk.inj (Except.ok.inj (hopen.symm.trans hopen'))
    refine ⟨rfl, ⟨_, rfl, left, hleft, hf ▸ hroomy'⟩, fun page => ?_⟩
    have hpath : g.pagePath page = f.pagePath page := by
      rw [Folder.pagePath, hsame, Folder.pagePath]
    simp [readPage, hstores, Store.read, Folder.load, hpath]

omit [Wire K] [Wire V] [LE K] [DecidableLE K] in
/-- The folder of a page store can be opened again. -/
theorem exists_reopened {s : Store K V} {f : Folder} (hr : e.Roomy limit) (hs : e.stores = [s])
    (hf : s.backing = .folder f) (policies : List (Policy BlockRef)) :
    ∃ e', e.reopened policies = some e' := by
  obtain ⟨s', hs', hroomy⟩ := hr
  obtain rfl := List.singleton_inj.1 (hs.symm.trans hs')
  rw [Store.Roomy, hf] at hroomy
  obtain ⟨left, -, hfolder⟩ := hroomy
  obtain ⟨n, hopen, -⟩ := hfolder.reopen
  simp [reopened, hs, Store.directory?, hf, openFolder, hopen, bind, Except.bind, Except.toOption,
    pure, Except.pure]

end Engine

/-! ### Steps -/

namespace Session

variable [Wire K] [Wire V] [LE K] [DecidableLE K]

/-- All maps hold their layouts, and every snapshot was taken of one. -/
structure Documented (limit : Option Nat) (s : Session K V) : Prop where
  engine : s.engine.AllHold limit
  saved : ∀ x ∈ s.saved, ∃ t, s.engine.Documents x t

/-- What the commands of a session keep. -/
structure Goes (limit : Option Nat) (s s' : Session K V) : Prop where
  documented : s'.Documented limit
  pages : ∀ page es, s.engine.readPage 0 page = .ok es → s'.engine.readPage 0 page = .ok es
  saved : s.saved <+: s'.saved

/-- The excess of every block, those of the snapshots included, is as `p` says. -/
structure Excess [Sized K] [Sized V] (p : Int → Prop) (s : Session K V) : Prop where
  layouts : ∀ m, ∀ b ∈ s.engine.layout m, p b.block.excess
  saved : ∀ x ∈ s.saved, ∃ t, s.engine.Documents x t ∧ ∀ b ∈ t, p b.block.excess

/-- The recorded sizes of all blocks, those of the snapshots included, are no less than the weights
of their entries. -/
structure Covered [Sized K] [Sized V] (s : Session K V) : Prop where
  layouts : ∀ m, (s.engine.layout m).Covered
  saved : ∀ x ∈ s.saved, ∃ t, s.engine.Documents x t ∧ t.Covered

variable {s s' s'' : Session K V} {c : Command K V} {limit : Option Nat}

theorem Goes.refl (h : s.Documented limit) : Goes limit s s :=
  ⟨h, fun _ _ hread => hread, List.prefix_refl _⟩

theorem Goes.trans (h : Goes limit s s') (h' : Goes limit s' s'') : Goes limit s s'' :=
  ⟨h'.documented, fun page es hread => h'.pages page es (h.pages page es hread),
    h.saved.trans h'.saved⟩

theorem Goes.documents {x : Saved K} {t : Layout K V} (h : Goes limit s s')
    (hx : s.engine.Documents x t) : s'.engine.Documents x t :=
  hx.mono h.pages

theorem documented_start {policies : List (Policy BlockRef)} {store : Store K V} {volume : Volume}
    (h : store.Ready limit volume) : (start policies store volume).Documented limit :=
  ⟨Engine.allHold_start h, by simp [start]⟩

variable [Sized K] [Sized V]

/-- A map may be restored from snapshots of maps whose entries had at least its overhead. -/
def Admits (s : Session K V) : Command K V → Prop
  | .boot m n => ∀ state ∈ s.engine.maps[m]?, ∀ x ∈ s.saved[n]?,
    state.home.entryOverhead ≤ x.entryOverhead
  | _ => True

instance decidableAdmits (s : Session K V) : (c : Command K V) → Decidable (s.Admits c)
  | .boot m n => inferInstanceAs (Decidable (∀ state ∈ s.engine.maps[m]?, ∀ x ∈ s.saved[n]?,
    state.home.entryOverhead ≤ x.entryOverhead))
  | .request _ | .reopen _ => .isTrue trivial

/-- Every map is restored from snapshots of maps whose entries had at least its overhead. -/
inductive AdmitsAll : Session K V → List (Command K V) → Prop
  | nil (s : Session K V) : AdmitsAll s []
  | cons {s : Session K V} {c : Command K V} {cs : List (Command K V)} (h : s.Admits c)
      (hs : AdmitsAll (s.step c).2 cs) : AdmitsAll s (c :: cs)

/-- Whether every command of a list is admitted can be computed. -/
instance decidableAdmitsAll (s : Session K V) :
    (cs : List (Command K V)) → Decidable (s.AdmitsAll cs)
  | [] => .isTrue (.nil s)
  | c :: cs =>
    have := decidableAdmitsAll (s.step c).2 cs
    decidable_of_iff (s.Admits c ∧ (s.step c).2.AdmitsAll cs)
      ⟨fun h => .cons h.1 h.2, fun h => by
        cases h with
        | cons hc hcs => exact ⟨hc, hcs⟩⟩

/-! ### What comes of a command -/

/-- A command serves a request, restores a map, opens the folder again, or changes nothing. -/
theorem step_cases (s : Session K V) (c : Command K V) :
    (∃ q, c = .request q ∧ (s.step c).2 =
      { engine := (s.engine.serve q).2,
        saved := s.saved ++ s.engine.taken q (s.engine.serve q).1 }) ∨
    (∃ m n state x, c = .boot m n ∧ s.engine.maps[m]? = some state ∧ s.saved[n]? = some x ∧
      (s.step c).2 = { s with engine := s.engine.restore m x.snapshot }) ∨
    (∃ policies e, s.engine.reopened policies = some e ∧ (s.step c).2 = { s with engine := e }) ∨
    (s.step c).2 = s := by
  cases c with
  | request q => exact Or.inl ⟨q, rfl, rfl⟩
  | boot m n =>
    cases hm : s.engine.maps[m]? with
    | none => exact Or.inr (Or.inr (Or.inr (by simp [step, hm])))
    | some state =>
      cases hx : s.saved[n]? with
      | none => exact Or.inr (Or.inr (Or.inr (by simp [step, hm, hx])))
      | some x => exact Or.inr (Or.inl ⟨m, n, state, x, rfl, hm, hx, by simp [step, hm, hx]⟩)
  | reopen policies =>
    cases he : s.engine.reopened policies with
    | none => exact Or.inr (Or.inr (Or.inr (by simp [step, he])))
    | some e => exact Or.inr (Or.inr (Or.inl ⟨policies, e, he, by simp [step, he]⟩))

/-- A list of requests restores no maps. -/
theorem admitsAll_requests (s : Session K V) (qs : List (Request K V)) :
    s.AdmitsAll (qs.map .request) := by
  induction qs generalizing s with
  | nil => exact .nil s
  | cons q qs ih => exact .cons trivial (ih _)

/-- What comes of serving a request in a session. -/
theorem goes_request {q : Request K V} {a : Answer K V} {e : Engine K V} (hs : s.Documented limit)
    (h : Engine.Served limit q a s.engine e) :
    Goes limit s { engine := e, saved := s.saved ++ s.engine.taken q a } := by
  refine ⟨⟨h.allHold, fun x hx => ?_⟩, h.pages 0, List.prefix_append _ _⟩
  rcases List.mem_append.1 hx with hx | hx
  · obtain ⟨t, ht⟩ := hs.saved x hx
    exact ⟨t, ht.mono (h.pages 0)⟩
  · obtain ⟨m, -, hdocuments⟩ := h.documents hs.engine hx
    exact ⟨_, hdocuments⟩

variable [Lossless K] [Lossless V] [Std.IsLinearOrder K]

omit [Lossless K] [Lossless V] [Std.IsLinearOrder K] in
theorem suffix_step (s : Session K V) (c : Command K V) :
    s.engine.events <:+ (s.step c).2.engine.events := by
  rcases s.step_cases c with
    ⟨q, -, h⟩ | ⟨m, n, state, x, -, -, -, h⟩ | ⟨policies, e, he, h⟩ | h <;> rw [h]
  · exact (Engine.serve_frame s.engine q).1
  · exact (Engine.extends_restore m x.snapshot s.engine).events
  · exact (Engine.events_reopened he).symm ▸ List.suffix_refl _

theorem goes_step (hs : s.Documented limit) (hw : (s.step c).2.engine.Within limit) :
    Goes limit s (s.step c).2 := by
  rcases s.step_cases c with
    ⟨q, -, h⟩ | ⟨m, n, state, x, -, hm, hx, h⟩ | ⟨policies, e, he, h⟩ | h <;> rw [h] at hw ⊢
  · exact goes_request hs (Engine.serve_spec hs.engine hw rfl)
  · obtain ⟨t, ht⟩ := hs.saved x (List.mem_of_getElem? hx)
    obtain ⟨lastId, htiled⟩ := ht.tiled
    obtain ⟨hchanges, -⟩ := Engine.restore_spec hs.engine hm ht.describes htiled
    refine ⟨⟨hchanges.allHold, fun y hy => ?_⟩, hchanges.pages 0, List.prefix_refl _⟩
    obtain ⟨u, hu⟩ := hs.saved y hy
    exact ⟨u, hu.mono (hchanges.pages 0)⟩
  · obtain ⟨hmaps, hroomy, hpages⟩ := Engine.reopened_spec hs.engine.roomy he
    have hread (page : Nat) (es : List (K × V)) (hread : s.engine.readPage 0 page = .ok es) :
        e.readPage 0 page = .ok es := (hpages page).trans hread
    have hempty : e.AllHold limit := .of_holds hroomy fun m state hm => by simp [hmaps] at hm
    refine ⟨⟨hempty, fun y hy => ?_⟩, hread, List.prefix_refl _⟩
    obtain ⟨u, hu⟩ := hs.saved y hy
    exact ⟨u, hu.mono hread⟩
  · exact .refl hs

omit [Lossless K] [Lossless V] [Std.IsLinearOrder K] in
theorem suffix_run (s : Session K V) (cs : List (Command K V)) :
    s.engine.events <:+ (s.run cs).engine.events := by
  induction cs generalizing s with
  | nil => exact List.suffix_refl _
  | cons c cs ih => exact (suffix_step s c).trans (ih _)

theorem goes_run {cs : List (Command K V)} (hs : s.Documented limit)
    (hw : (s.run cs).engine.Within limit) : Goes limit s (s.run cs) := by
  induction cs generalizing s with
  | nil => exact .refl hs
  | cons c cs ih =>
    have hstep := goes_step hs (hw.of_suffix (suffix_run _ cs))
    exact hstep.trans (ih hstep.documented hw)

/-! ### Recorded sizes -/

/-- What is true of 0 and of the excess of every block, none of which is negative, remains so after
a command, if it remains so where the command restores a map. -/
theorem Excess.step {p : Int → Prop} (h : s.Excess p) (hs : s.Documented limit) (hzero : p 0)
    (hnonneg : ∀ c, p c → 0 ≤ c)
    (hboot : ∀ m n state x, c = .boot m n → s.engine.maps[m]? = some state → s.saved[n]? = some x →
      ∀ b : Block K V, b.home.entryOverhead = x.entryOverhead → p b.excess →
        p (b.revived state.home).excess)
    (hw : (s.step c).2.engine.Within limit) : (s.step c).2.Excess p := by
  rcases s.step_cases c with ⟨q, rfl, hstep⟩ | ⟨m, n, state, x, hc, hm, hx, hstep⟩ |
    ⟨policies, e, he, hstep⟩ | hstep <;> rw [hstep] at hw ⊢
  · have hserved := Engine.serve_spec hs.engine hw rfl
    refine ⟨fun m => (hserved.shifts m).excess hzero hnonneg (h.layouts m), fun x hx => ?_⟩
    rcases List.mem_append.1 hx with hx | hx
    · obtain ⟨t, ht, hexcess⟩ := h.saved x hx
      exact ⟨t, ht.mono (hserved.pages 0), hexcess⟩
    · obtain ⟨m, -, hdocuments⟩ := hserved.documents hs.engine hx
      exact ⟨_, hdocuments, h.layouts m⟩
  · obtain ⟨t, ht, hexcess⟩ := h.saved x (List.mem_of_getElem? hx)
    obtain ⟨lastId, htiled⟩ := ht.tiled
    obtain ⟨hchanges, base, hlayout⟩ := Engine.restore_spec hs.engine hm ht.describes htiled
    refine ⟨fun m' => ?_, fun y hy => ?_⟩
    · by_cases hne : m' = m
      · rw [hne, hlayout]
        intro b hb
        obtain ⟨-, hmem⟩ := Layout.le_ref_of_mem_place hb
        obtain ⟨r, hr, hrb⟩ := List.mem_map.1 hmem
        have hr' := List.mem_of_mem_filter hr
        rw [← hrb]
        exact hboot m n state x hc hm hx r.block (ht.homes r hr') (hexcess r hr')
      · rw [hchanges.others m' hne]
        exact h.layouts m'
    · obtain ⟨u, hu, hexcess'⟩ := h.saved y hy
      exact ⟨u, hu.mono (hchanges.pages 0), hexcess'⟩
  · obtain ⟨hmaps, -, hpages⟩ := Engine.reopened_spec hs.engine.roomy he
    refine ⟨fun m => ?_, fun y hy => ?_⟩
    · rw [Engine.layout_of_none (by simp [hmaps])]
      exact fun b hb => by simp at hb
    · obtain ⟨u, hu, hexcess⟩ := h.saved y hy
      exact ⟨u, hu.mono fun page es hread => (hpages page).trans hread, hexcess⟩
  · exact h

/-- A command that is admitted keeps the recorded sizes no less than the weights. -/
theorem Covered.step (h : s.Covered) (hs : s.Documented limit) (hc : s.Admits c)
    (hw : (s.step c).2.engine.Within limit) : (s.step c).2.Covered := by
  have hexcess : s.Excess (0 ≤ ·) := ⟨h.layouts, h.saved⟩
  have hstep := hexcess.step hs (Int.le_refl 0) (fun _ hc => hc) ?_ hw
  · exact ⟨hstep.layouts, hstep.saved⟩
  · rintro m n state x rfl hm hx b hb hexcess
    exact hexcess.trans (Block.excess_le_revived (hb ▸ hc state hm x hx))

theorem Covered.run {cs : List (Command K V)} (h : s.Covered) (hs : s.Documented limit)
    (hadmits : s.AdmitsAll cs) (hw : (s.run cs).engine.Within limit) : (s.run cs).Covered := by
  induction hadmits with
  | nil s => exact h
  | @cons s c cs hc hrest ih =>
    have hw' := hw.of_suffix (suffix_run _ cs)
    exact ih (h.step hs hc hw') (goes_step hs hw').documented hw

omit [Lossless K] [Lossless V] [Std.IsLinearOrder K] in
theorem covered_start (policies : List (Policy BlockRef)) (store : Store K V) (volume : Volume) :
    (start policies store volume).Covered :=
  ⟨fun m b hb => by simp [start, Engine.start, Engine.layout] at hb, by simp [start]⟩

end Session

end PagedMap
