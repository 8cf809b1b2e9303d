import Mathlib
import PagedMap.Proofs.Pages

/-!
# A folder answers like memory

A folder that had an empty directory to itself from the start holds what a store in memory would
hold (`Folder.Mirrors`): the names in its directory are those of the pages, each page has its image
there, and numbering goes on after the last one.  Every request to the folder is answered as the
store in memory answers it, and opening the directory again finds the folder as it was.

So a folder that is opened, used and closed any number of times answers like one store in memory
that is never closed (`Store.answersAcross_eq`).
-/

namespace PagedMap

/-! ### Requests to a page store -/

namespace Store

variable {K V : Type}

/-- What can be asked of a page store. -/
inductive Request (K V : Type) where
  | create (entries : List (K × V))
  | load (page : Nat)

/-- What a page store answers: the number of the new page, or the entries of a page. -/
inductive Answer (K V : Type) where
  | created (result : Except StoreError Nat)
  | loaded (result : Except StoreError (List (K × V)))

/-- The entries that a request makes a page of. -/
def Request.entries? : Request K V → Option (List (K × V))
  | .create entries => some entries
  | .load _ => none

/-- A store in a folder. -/
def inFolder (f : Folder) : Store K V := { backing := .folder f }

variable [Wire K] [Wire V]

/-- Answers a request. -/
def answer (s : Store K V) (v : Volume) : Request K V → Answer K V × Store K V × Volume
  | .create entries =>
    let (result, s, v) := s.create v entries
    (.created result, s, v)
  | .load page =>
    let (result, s) := s.load v page
    (.loaded result, s, v)

/-- Answers requests one after another. -/
def answers (s : Store K V) (v : Volume) : List (Request K V) →
    List (Answer K V) × Store K V × Volume
  | [] => ([], s, v)
  | request :: later =>
    let (first, s, v) := s.answer v request
    let (rest, s, v) := s.answers v later
    (first :: rest, s, v)

/-- The answers of the folder at a path, which is opened anew before each list of requests. -/
def answersAcross (path : Path) (v : Volume) : List (List (Request K V)) →
    Except StoreError (List (Answer K V))
  | [] => .ok []
  | requests :: later => do
    let (f, v) ← Folder.openAt v path
    let (first, _, v) := (inFolder f).answers v requests
    let rest ← answersAcross path v later
    return first ++ rest

end Store

/-! ### Opening a directory does not fill it -/

namespace Volume

variable {v v' : Volume} {path p : Path}

/-- A directory that leads to a path, or stands at it, does not lie in it. -/
theorem list_fill (h : p.length ≤ path.length) : (v.fill p).list path = v.list path := by
  unfold fill
  split
  · rename_i hnone
    have hne : p ≠ [] := by
      rintro rfl
      simp [node?] at hnone
    have hall : v.nodes.filter (fun n => n.1 ≠ p) = v.nodes := by
      rw [List.filter_eq_self]
      intro n hn
      obtain ⟨a, q, rfl⟩ := List.exists_cons_of_ne_nil hne
      simp only [node?, Option.map_eq_none_iff, List.find?_eq_none, decide_eq_true_eq] at hnone
      simpa using hnone n hn
    have hdrop : p.dropLast ≠ path := by
      rintro rfl
      have := List.length_pos_iff.2 hne
      rw [List.length_dropLast] at h
      omega
    unfold list put
    rw [hall, List.filterMap_cons, List.getLast?_eq_some_getLast hne]
    simp only [if_neg hdrop]
  · rfl

theorem list_makeDirectory (h : v.makeDirectory path = .ok v') : v'.list path = v.list path := by
  have hfill : ∀ (ps : List Path) (v : Volume), (∀ p ∈ ps, p.length ≤ path.length) →
      (ps.foldl fill v).list path = v.list path := by
    intro ps
    induction ps with
    | nil => exact fun _ _ => rfl
    | cons p ps ih =>
      intro v hps
      rw [List.foldl_cons, ih _ fun q hq => hps q (by simp [hq]), list_fill (hps p (by simp))]
  unfold Volume.makeDirectory at h
  split at h
  · split at h <;> simp at h
  · obtain rfl := Except.ok.inj h
    exact hfill _ v fun p hp => length_le_of_mem_prefixes hp

end Volume

/-! ### What a folder holds -/

namespace Folder

variable {K V : Type} [Wire K] [Wire V] {pages : List (List (K × V))} {f : Folder} {v v' : Volume}

/-- The directory of the folder holds these pages, numbered from 1, and nothing else. -/
structure Mirrors (pages : List (List (K × V))) (v : Volume) (f : Folder) : Prop where
  directory : v.IsDirectory f.directory
  next : f.nextPage = (pages.length + 1) % UInt64.size
  length : pages.length < UInt64.size
  names : ∀ n ∈ v.list f.directory, ∃ i < pages.length, n.1 = Image.fileName (i + 1)
  image : ∀ i, (h : i < pages.length) →
    v.node? (f.pagePath (i + 1)) = some (.file (Image.ofEntries pages[i]))

theorem directory_openAt {path : Path} (h : openAt v path = .ok (f, v')) : f.directory = path := by
  unfold openAt at h
  split at h
  · rw [← (Prod.mk.inj (Except.ok.inj h)).1]
  · simp at h

/-- A directory without names is opened as a folder without pages. -/
theorem mirrors_openAt {path : Path} (hempty : v.list path = [])
    (h : openAt v path = .ok (f, v')) : f.Mirrors ([] : List (List (K × V))) v' := by
  unfold openAt at h
  split at h
  · rename_i v'' hmake
    obtain ⟨rfl, rfl⟩ := Prod.mk.inj (Except.ok.inj h)
    have hlist : v''.list path = [] := by rw [Volume.list_makeDirectory hmake, hempty]
    exact {
      directory := Volume.isDirectory_makeDirectory hmake
      next := by simp [firstFree, hlist]
      length := by simp [UInt64.size]
      names := by simp [hlist]
      image := by simp }
  · simp at h

theorem Mirrors.node?_eq_none (h : f.Mirrors pages v) {page : Nat}
    (hpage : ∀ i < pages.length, page ≠ i + 1) : v.node? (f.pagePath page) = none := by
  rw [Option.eq_none_iff_forall_ne_some]
  intro node hnode
  obtain ⟨i, hi, hname⟩ := h.names _ (Volume.mem_list_of_node? hnode)
  exact hpage i hi (Image.fileName_injective hname)

theorem Mirrors.draft_eq_none (h : f.Mirrors pages v) (page : Nat) :
    v.node? (f.draftPath page) = none := by
  rw [Option.eq_none_iff_forall_ne_some]
  intro node hnode
  obtain ⟨i, -, hname⟩ := h.names _ (Volume.mem_list_of_node? hnode)
  exact Image.fileName_ne_draftName _ _ hname.symm

/-- The numbers of the pages in the directory are those from 1 to the number of pages. -/
theorem Mirrors.firstFree_eq (h : f.Mirrors pages v) :
    firstFree v f.directory = (pages.length + 1) % UInt64.size := by
  have hlength := h.length
  set numbers := (v.list f.directory).filterMap fun n => Image.page? n.1 with hnumbers
  have hle : numbers.foldl max 0 < pages.length + 1 := by
    refine foldl_max_lt_iff.2 ⟨Nat.succ_pos _, fun page hpage => ?_⟩
    obtain ⟨n, hn, hpage⟩ := List.mem_filterMap.1 hpage
    obtain ⟨i, hi, hname⟩ := h.names n hn
    rw [hname, Image.page?_fileName (by omega)] at hpage
    obtain rfl := Option.some.inj hpage
    omega
  have hge : ¬ numbers.foldl max 0 < pages.length := by
    rw [foldl_max_lt_iff]
    rintro ⟨hpos, hall⟩
    have hnode := h.image (pages.length - 1) (by omega)
    rw [Nat.sub_add_cancel hpos] at hnode
    have hmem : pages.length ∈ numbers := List.mem_filterMap.2
      ⟨_, Volume.mem_list_of_node? hnode, Image.page?_fileName hlength⟩
    exact Nat.lt_irrefl _ (hall _ hmem)
  have hmax : numbers.foldl max 0 = pages.length := by omega
  rw [firstFree, ← hnumbers, hmax]

/-- Opening the directory again finds the folder as it was. -/
theorem Mirrors.openAt (h : f.Mirrors pages v) : openAt v f.directory = .ok (f, v) := by
  rw [Folder.openAt, h.directory.makeDirectory]
  simp only [h.firstFree_eq, ← h.next]

theorem Mirrors.roomy (h : f.Mirrors pages v) (hroom : pages.length + 1 < UInt64.size) :
    f.Roomy 0 v := by
  have hnext : f.nextPage = pages.length + 1 := by rw [h.next, Nat.mod_eq_of_lt hroom]
  refine ⟨h.directory, by omega, by omega, fun n hn page hpage => ?_⟩
  obtain ⟨i, hi, hname⟩ := h.names n hn
  rw [hname, Image.page?_fileName (by omega)] at hpage
  obtain rfl := Option.some.inj hpage
  omega

/-- A new page gets the next number, and the directory holds one page more. -/
theorem Mirrors.create (h : f.Mirrors pages v) (hroom : pages.length + 1 < UInt64.size)
    (entries : List (K × V)) : ∃ f' v', f.create v entries none = (.ok (pages.length + 1), f', v') ∧
      f'.directory = f.directory ∧ f'.Mirrors (pages ++ [entries]) v' := by
  have hnext : f.nextPage = pages.length + 1 := by rw [h.next, Nat.mod_eq_of_lt hroom]
  have hwrite : f.writePage v f.nextPage (Image.ofEntries entries) none =
      (.ok (), f.written v (Image.ofEntries entries)) :=
    (h.roomy hroom).writePage_of_ne (by simp [h.draft_eq_none]) _
  refine ⟨⟨f.directory, (f.nextPage + 1) % UInt64.size⟩, f.written v (Image.ofEntries entries), ?_,
    rfl, ?_⟩
  · rw [Folder.create]
    simp only [hwrite]
    rw [hnext]
  · exact {
      directory := ((h.directory.put _ _).erase _).put _ _
      next := by simp [hnext]
      length := by simpa using hroom
      names := fun n hn => by
        rw [List.length_append, List.length_singleton]
        rcases Volume.mem_list_put hn with hn | hn
        · exact ⟨pages.length, Nat.lt_succ_self _, by rw [hn, hnext]⟩
        · have hne := Volume.ne_of_mem_list_erase hn
          have hold := (Volume.mem_list_put (Volume.mem_list_erase hn)).resolve_left hne
          obtain ⟨i, hi, hname⟩ := h.names n hold
          exact ⟨i, Nat.lt_succ_of_lt hi, hname⟩
      image := fun i hi => by
        have hnode := node?_written f v (Image.ofEntries entries) (i + 1)
        rw [hnext] at hnode
        refine hnode.trans ?_
        rw [List.length_append, List.length_singleton] at hi
        rcases Nat.lt_or_eq_of_le (Nat.le_of_lt_succ hi) with hlt | rfl
        · rw [if_neg (by omega), h.image i hlt]
          simp [List.getElem_append_left hlt]
        · simp }

variable [Lossless K] [Lossless V]

/-- A page is read as a store in memory reads it. -/
theorem Mirrors.load (h : f.Mirrors pages v) (hfits : ∀ entries ∈ pages, Lossless.Fits entries)
    (page : Nat) :
    f.load v page = (⟨.memory pages, {}⟩ : Store K V).read v page := by
  by_cases hpage : ∃ i < pages.length, page = i + 1
  · obtain ⟨i, hi, rfl⟩ := hpage
    have hread := Volume.read_of_file (h.directory.reach _) (h.image i hi)
    rw [load_of_read hread, Image.entries?_ofEntries (hfits _ (List.getElem_mem hi))]
    simp [Store.read, List.getElem?_eq_getElem hi]
  · push Not at hpage
    have hread := Volume.read_of_none (h.directory.reach _) (h.node?_eq_none hpage)
    rw [Folder.load, pagePath, hread]
    cases page with
    | zero => rfl
    | succ i =>
      have hnone : pages[i]? = none :=
        List.getElem?_eq_none (Nat.le_of_not_lt fun hi => hpage i hi rfl)
      simp [Store.read, hnone]

end Folder

/-! ### The same answers -/

namespace Store

variable {K V : Type} [Wire K] [Wire V] {pages : List (List (K × V))} {path : Path}
  {s m : Store K V} {v v' w : Volume} {f : Folder}

theorem answers_append (m : Store K V) (w : Volume) (requests later : List (Request K V)) :
    (m.answers w (requests ++ later)).1 = (m.answers w requests).1 ++
      ((m.answers w requests).2.1.answers (m.answers w requests).2.2 later).1 := by
  induction requests generalizing m w with
  | nil => rfl
  | cons request requests ih => simp [Store.answers, ih]

/-- No call of the store is refused. -/
structure Willing (s : Store K V) : Prop where
  loads : ∀ i, s.faults.loads.refused i = false
  creates : ∀ i, s.faults.creates.refused i = false

theorem Willing.load (h : s.Willing) (v : Volume) (page : Nat) :
    ∃ s' : Store K V, s.load v page = (s.read v page, s') ∧ s'.backing = s.backing ∧
      s'.Willing := by
  have hnow : s.faults.loads.now = false := h.loads _
  exact ⟨{ s with faults.loads := s.faults.loads.later }, by simp [Store.load, hnow], rfl,
    h.loads, h.creates⟩

theorem Willing.create (h : s.Willing) (v : Volume) (entries : List (K × V)) :
    ∃ s' : Store K V, s.create v entries = s'.append v entries ∧ s'.backing = s.backing ∧
      s'.Willing := by
  have hnow : s.faults.creates.now = false := h.creates _
  exact ⟨{ s with faults.creates := s.faults.creates.later }, by simp [Store.create, hnow], rfl,
    h.loads, h.creates⟩

/-- A store in the folder at a path and a store in memory with the same pages. -/
structure SamePages (path : Path) (pages : List (List (K × V))) (v : Volume) (s m : Store K V) :
    Prop where
  folder : ∃ f, s.backing = .folder f ∧ f.directory = path ∧ f.Mirrors pages v
  memory : m.backing = .memory pages
  willing : s.Willing
  willing' : m.Willing

variable [Lossless K] [Lossless V]

/-- The numbers of 64 bits suffice for the pages and for those that the requests make, and the
entries have an encoding. -/
structure Feasible (pages : List (List (K × V))) (requests : List (Request K V)) : Prop where
  room : (pages ++ requests.filterMap Request.entries?).length < UInt64.size
  fits : ∀ entries ∈ pages ++ requests.filterMap Request.entries?, Lossless.Fits entries

theorem Feasible.tail {request : Request K V} {later : List (Request K V)}
    (h : Feasible pages (request :: later)) :
    Feasible (pages ++ request.entries?.toList) later := by
  have hsplit : pages ++ (request :: later).filterMap Request.entries? =
      pages ++ request.entries?.toList ++ later.filterMap Request.entries? := by
    cases hentries : request.entries? <;> simp [hentries]
  exact ⟨hsplit ▸ h.room, hsplit ▸ h.fits⟩

/-- A request is answered alike, and the pages stay alike. -/
theorem SamePages.answer (h : SamePages path pages v s m) {request : Request K V}
    {later : List (Request K V)} (hfeasible : Feasible pages (request :: later)) (w : Volume) :
    ∃ a s' v' m', s.answer v request = (a, s', v') ∧ m.answer w request = (a, m', w) ∧
      SamePages path (pages ++ request.entries?.toList) v' s' m' := by
  obtain ⟨⟨f, hf, rfl, hmirrors⟩, hmemory, hs, hm⟩ := h
  cases request with
  | create entries =>
    obtain ⟨s', hcreate, hbacking, hs'⟩ := hs.create v entries
    obtain ⟨m', hcreate', hbacking', hm'⟩ := hm.create w entries
    have hroom : pages.length + 1 < UInt64.size := by
      have := hfeasible.tail.room
      simp only [Request.entries?, Option.toList_some, List.length_append,
        List.length_singleton] at this
      omega
    obtain ⟨f', v', hpage, hdirectory, hmirrors'⟩ := hmirrors.create hroom entries
    refine ⟨.created (.ok (pages.length + 1)), { s' with backing := .folder f' }, v',
      { m' with backing := .memory (pages ++ [entries]) }, ?_, ?_, ⟨f', rfl, hdirectory, hmirrors'⟩,
      rfl, ⟨hs'.loads, hs'.creates⟩, ⟨hm'.loads, hm'.creates⟩⟩
    · simp only [Store.answer, hcreate, append, hbacking, hf, hpage]
    · simp only [Store.answer, hcreate', append, hbacking', hmemory]
  | load page =>
    obtain ⟨s', hload, hbacking, hs'⟩ := hs.load v page
    obtain ⟨m', hload', hbacking', hm'⟩ := hm.load w page
    have hfits : ∀ entries ∈ pages, Lossless.Fits entries := fun entries hentries =>
      hfeasible.fits entries (List.mem_append_left _ hentries)
    have hread : s.read v page = m.read w page := by
      rw [read, hf, read, hmemory]
      exact hmirrors.load hfits page
    refine ⟨.loaded (m.read w page), s', v, m', ?_, ?_, ⟨f, by rw [hbacking, hf], rfl, ?_⟩,
      ?_, hs', hm'⟩
    · simp only [Store.answer, hload, hread]
    · simp only [Store.answer, hload']
    · simpa [Request.entries?] using hmirrors
    · simpa [Request.entries?] using hbacking'.trans hmemory

theorem SamePages.answers (h : SamePages path pages v s m) {requests later : List (Request K V)}
    (hfeasible : Feasible pages (requests ++ later)) (w : Volume) :
    ∃ as s' v' m', s.answers v requests = (as, s', v') ∧ m.answers w requests = (as, m', w) ∧
      SamePages path (pages ++ requests.filterMap Request.entries?) v' s' m' ∧
      Feasible (pages ++ requests.filterMap Request.entries?) later := by
  induction requests generalizing pages v s m with
  | nil => exact ⟨[], s, v, m, rfl, rfl, by simpa using h, by simpa using hfeasible⟩
  | cons request requests ih =>
    obtain ⟨a, s₁, v₁, m₁, hanswer, hanswer', hsame⟩ := h.answer hfeasible w
    obtain ⟨as, s₂, v₂, m₂, hanswers, hanswers', hsame, hfeasible⟩ := ih hsame hfeasible.tail
    have hpages : pages ++ (request :: requests).filterMap Request.entries? =
        pages ++ request.entries?.toList ++ requests.filterMap Request.entries? := by
      cases hentries : request.entries? <;> simp [hentries]
    refine ⟨a :: as, s₂, v₂, m₂, ?_, ?_, hpages ▸ hsame, hpages ▸ hfeasible⟩
    · simp only [Store.answers, hanswer, hanswers]
    · simp only [Store.answers, hanswer', hanswers']

/-- A folder that is closed with these pages, or has a directory without names, answers like memory
each time it is opened. -/
theorem answersAcross_of_mirrors {sittings : List (List (Request K V))}
    (hopen : Folder.openAt v path = .ok (f, v')) (hpath : f.directory = path)
    (hmirrors : f.Mirrors pages v') (hmemory : m.backing = .memory pages) (hm : m.Willing)
    (hfeasible : Feasible pages sittings.flatten) (w : Volume) :
    answersAcross path v sittings = .ok (m.answers w sittings.flatten).1 := by
  -- `Mirrors` carries the induction: it outlasts closing the folder and opening it again
  induction sittings generalizing pages v v' f m with
  | nil => rfl
  | cons requests later ih =>
    have hsame : SamePages path pages v' (inFolder f) m :=
      ⟨⟨f, rfl, hpath, hmirrors⟩, hmemory, ⟨fun _ => rfl, fun _ => rfl⟩, hm⟩
    rw [List.flatten_cons] at hfeasible ⊢
    obtain ⟨as, s', v'', m', hanswers, hanswers', hsame, hfeasible⟩ := hsame.answers hfeasible w
    obtain ⟨f', -, rfl, hmirrors'⟩ := hsame.folder
    have hrest := ih hmirrors'.openAt rfl hmirrors' hsame.memory hsame.willing' hfeasible
    rw [answersAcross, hopen]
    change (do
      let rest ← answersAcross f'.directory ((inFolder f).answers v' requests).2.2 later
      pure (((inFolder f).answers v' requests).1 ++ rest)) = _
    rw [hanswers, hrest, answers_append, hanswers']
    rfl

/-- A folder whose directory has no names at first, and which is opened, used and closed any number
of times, answers all requests like one store in memory, as long as numbers of 64 bits suffice for
the pages and for the lengths within their entries. -/
theorem answersAcross_eq (k v : Shape) {path : Path} {volume volume' : Volume} {f : Folder}
    (hempty : volume.list path = []) (hopen : Folder.openAt volume path = .ok (f, volume'))
    (sittings : List (List (Request k.Datum v.Datum)))
    (hroom : (sittings.flatten.filterMap Request.entries?).length < UInt64.size)
    (hfits : ∀ entries ∈ sittings.flatten.filterMap Request.entries?, Lossless.Fits entries) :
    answersAcross path volume sittings = .ok (inMemory.answers {} sittings.flatten).1 :=
  answersAcross_of_mirrors hopen (Folder.directory_openAt hopen)
    (Folder.mirrors_openAt hempty hopen) rfl ⟨fun _ => rfl, fun _ => rfl⟩
    ⟨by simpa using hroom, by simpa using hfits⟩ {}

/-- A folder that is opened three times. -/
theorem answersAcross_eq_reopened :
    let sittings : List (List (Request (Shape.uint .w8).Datum Shape.bool.Datum)) :=
      [[.create [(1#8, true)], .load 1], [.load 2, .create []], [.load 2, .load 1]]
    answersAcross ["pages"] {} sittings =
      .ok [.created (.ok 1), .loaded (.ok [(1#8, true)]), .loaded (.error (.pageNotFound 2)),
        .created (.ok 2), .loaded (.ok []), .loaded (.ok [(1#8, true)])] := by
  intro sittings
  have hopen : Folder.openAt {} ["pages"] =
      .ok (⟨["pages"], 1⟩, { nodes := [(["pages"], .directory)] }) := by rfl
  have hcreated : sittings.flatten.filterMap Request.entries? = [[(1#8, true)], []] := rfl
  have hfits : ∀ entries ∈ sittings.flatten.filterMap Request.entries?, Lossless.Fits entries := by
    intro entries hentries
    rw [hcreated] at hentries
    refine ⟨?_, fun _ _ => ⟨trivial, trivial⟩⟩
    rcases List.mem_pair.mp hentries with rfl | rfl <;> decide
  exact answersAcross_eq (.uint .w8) .bool rfl hopen sittings (by rw [hcreated]; decide) hfits

end Store

end PagedMap
