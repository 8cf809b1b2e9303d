import Mathlib
import PagedMap.Proofs.Codec
import PagedMap.Store

/-!
# Pages are never changed

A page that was written is read back as it was written, whatever pages are written later.  In
memory this is plain.  In a folder it rests on the names of files: the name of a page tells its
number (`Image.page?_fileName`), every name in the directory that is taken for a page has a smaller
number than the next page (`Folder.Roomy`), and so the next page takes no name that is in use.  This
holds as long as the numbers of 64 bits do not run out, for which `Folder.Roomy` counts how many
more pages there may be, and it holds again when the directory is reopened (`Folder.Roomy.reopen`).

Main statements: `Store.Roomy.create`, `Store.Roomy.load`.
-/

namespace PagedMap

/-! ### Paths -/

namespace Volume

variable {v : Volume} {path p : Path} {name : String}

theorem prefixes_append_singleton (path : Path) (name : String) :
    prefixes (path ++ [name]) = prefixes path ++ [path ++ [name]] := by
  induction path with
  | nil => rfl
  | cons a path ih => simp [prefixes, ih]

theorem length_le_of_mem_prefixes (h : p ∈ prefixes path) : p.length ≤ path.length := by
  induction path generalizing p with
  | nil => simp_all [prefixes]
  | cons a path ih =>
    rcases List.mem_cons.1 h with rfl | h
    · exact Nat.zero_le _
    · obtain ⟨q, hq, rfl⟩ := List.mem_map.1 h
      exact Nat.succ_le_succ (ih hq)

/-- What leads to a directory is not what lies in it. -/
theorem ne_of_mem_prefixes (h : p ∈ prefixes path) (name : String) : p ≠ path ++ [name] := by
  rintro rfl
  have := length_le_of_mem_prefixes h
  simp at this

/-- Whether all directories that a path leads through, and what it leads to, are directories. -/
def IsDirectory (v : Volume) (path : Path) : Prop :=
  ∀ p ∈ prefixes path, v.node? p = some .directory

theorem IsDirectory.reach (h : v.IsDirectory path) (name : String) :
    v.reach (path ++ [name]) = .ok () := by
  have hnone : ((prefixes (path ++ [name])).dropLast.find? fun p =>
      decide (v.node? p ≠ some .directory)) = none := by
    rw [prefixes_append_singleton, List.dropLast_concat, List.find?_eq_none]
    intro p hp
    simp [h p hp]
  rw [Volume.reach, hnone]

theorem read_of_file {bytes : List UInt8} (hreach : v.reach p = .ok ())
    (h : v.node? p = some (.file bytes)) : v.read p = .ok bytes := by
  rw [Volume.read, hreach, h]
  rfl

theorem read_of_none (hreach : v.reach p = .ok ()) (h : v.node? p = none) :
    v.read p = .error .notFound := by
  rw [Volume.read, hreach, h]
  rfl

theorem write_of_directory {bytes : List UInt8} (hreach : v.reach p = .ok ())
    (h : v.node? p = some .directory) : v.write p bytes = .error .isDirectory := by
  rw [Volume.write, hreach, h]
  rfl

theorem write_of_ne {bytes : List UInt8} (hreach : v.reach p = .ok ())
    (h : v.node? p ≠ some .directory) : v.write p bytes = .ok (v.put p (.file bytes)) := by
  rw [Volume.write, hreach]
  cases hnode : v.node? p with
  | none => rfl
  | some node =>
    cases node with
    | directory => exact absurd hnode h
    | file _ => rfl

theorem rename_of_none {bytes : List UInt8} {q : Path} (hread : v.read p = .ok bytes)
    (hreach : v.reach q = .ok ()) (h : v.node? q = none) :
    v.rename p q = .ok ((v.erase p).put q (.file bytes)) := by
  rw [Volume.rename, hread]
  change (v.reach q >>= fun _ => _) = _
  rw [hreach, h]
  rfl

theorem node?_erase (hpath : path ≠ []) (p : Path) :
    (v.erase path).node? p = if p = path then none else v.node? p := by
  match p with
  | [] => simp [node?, Ne.symm hpath]
  | name :: rest =>
    by_cases heq : name :: rest = path
    · subst heq
      simp [node?, Volume.erase, List.find?_filter]
    · simp only [node?, Volume.erase, if_neg heq, List.find?_filter]
      congr 2
      funext n
      by_cases hn : n.1 = name :: rest <;> simp_all

theorem IsDirectory.put (h : v.IsDirectory path) (name : String) (node : Node) :
    (v.put (path ++ [name]) node).IsDirectory path := fun p hp => by
  rw [node?_put (by simp), if_neg (ne_of_mem_prefixes hp name), h p hp]

theorem IsDirectory.erase (h : v.IsDirectory path) (name : String) :
    (v.erase (path ++ [name])).IsDirectory path := fun p hp => by
  rw [node?_erase (by simp), if_neg (ne_of_mem_prefixes hp name), h p hp]

theorem mem_list {n : String × Node} : n ∈ v.list path ↔ (path ++ [n.1], n.2) ∈ v.nodes := by
  simp only [list, List.mem_filterMap]
  constructor
  · rintro ⟨⟨q, node⟩, hmem, hn⟩
    split at hn
    · rename_i name hlast
      obtain ⟨init, hq⟩ := List.getLast?_eq_some_iff.1 hlast
      split at hn
      · rename_i hdrop
        subst hq
        rw [List.dropLast_concat] at hdrop
        subst hdrop
        obtain rfl := Option.some.inj hn
        exact hmem
      · simp at hn
    · simp at hn
  · intro hmem
    exact ⟨(path ++ [n.1], n.2), hmem, by simp⟩

/-- A file or a directory that is found in a directory is listed there. -/
theorem mem_list_of_node? {node : Node} (h : v.node? (path ++ [name]) = some node) :
    (name, node) ∈ v.list path := by
  rw [mem_list]
  have hfind : (v.nodes.find? fun n => decide (n.1 = path ++ [name])).map (·.2) = some node := by
    have hne : path ++ [name] ≠ [] := by simp
    unfold node? at h
    split at h
    · contradiction
    · exact h
  obtain ⟨n, hn, rfl⟩ := Option.map_eq_some_iff.1 hfind
  have hpath : n.1 = path ++ [name] := by simpa using List.find?_some hn
  exact hpath ▸ List.mem_of_find?_eq_some hn

theorem mem_list_put {node : Node} {n : String × Node}
    (h : n ∈ (v.put (path ++ [name]) node).list path) : n.1 = name ∨ n ∈ v.list path := by
  rw [mem_list, Volume.put, List.mem_cons] at h
  rcases h with h | h
  · exact Or.inl (by simpa using (Prod.mk.inj h).1)
  · exact Or.inr (mem_list.2 (List.mem_of_mem_filter h))

theorem mem_list_erase {n : String × Node} (h : n ∈ (v.erase p).list path) : n ∈ v.list path :=
  mem_list.2 (List.mem_of_mem_filter (mem_list.1 h))

/-- A name that was erased is listed no longer. -/
theorem ne_of_mem_list_erase {n : String × Node} (h : n ∈ (v.erase (path ++ [name])).list path) :
    n.1 ≠ name := by
  rintro rfl
  have hne := (List.mem_filter.1 (mem_list.1 h)).2
  simp at hne

/-- Makes a directory at a path where there is nothing. -/
def fill (v : Volume) (p : Path) : Volume :=
  if v.node? p = none then v.put p .directory else v

theorem node?_fill {q : Path} {node : Node} (h : v.node? q = some node) (p : Path) :
    (v.fill p).node? q = some node := by
  unfold fill
  split
  · rename_i hp
    have hne : p ≠ [] := by
      rintro rfl
      simp [node?] at hp
    have hqp : q ≠ p := by
      rintro rfl
      simp [hp] at h
    rw [node?_put hne, if_neg hqp, h]
  · exact h

theorem node?_fill_self (h : (v.node? p).all (· = .directory)) :
    (v.fill p).node? p = some .directory := by
  unfold fill
  split
  · rename_i hp
    have hne : p ≠ [] := by
      rintro rfl
      simp [node?] at hp
    rw [node?_put hne, if_pos rfl]
  · rename_i hp
    obtain ⟨node, hnode⟩ := Option.ne_none_iff_exists'.1 hp
    simpa [hnode] using h

theorem node?_foldl_fill {q : Path} {node : Node} (ps : List Path) (h : v.node? q = some node) :
    (ps.foldl fill v).node? q = some node := by
  induction ps generalizing v with
  | nil => exact h
  | cons p ps ih => exact ih (node?_fill h p)

/-- Filling paths without files makes directories of them. -/
theorem node?_foldl_fill_self {ps : List Path} (h : ∀ p ∈ ps, (v.node? p).all (· = .directory)) :
    ∀ p ∈ ps, (ps.foldl fill v).node? p = some .directory := by
  induction ps generalizing v with
  | nil => simp
  | cons p ps ih =>
    have hp := node?_fill_self (h p (by simp))
    have hps : ∀ q ∈ ps, ((v.fill p).node? q).all (· = .directory) := fun q hq => by
      unfold fill
      split
      · rename_i hnone
        have hne : p ≠ [] := by
          rintro rfl
          simp [node?] at hnone
        rw [node?_put hne]
        split
        · rfl
        · exact h q (by simp [hq])
      · exact h q (by simp [hq])
    intro q hq
    rcases List.mem_cons.1 hq with rfl | hq
    · exact node?_foldl_fill ps hp
    · exact ih hps q hq

/-- Making a directory makes it and all that leads to it. -/
theorem isDirectory_makeDirectory {v' : Volume} (h : v.makeDirectory path = .ok v') :
    v'.IsDirectory path := by
  unfold Volume.makeDirectory at h
  split at h
  · split at h <;> simp at h
  · rename_i hnone
    obtain rfl := Except.ok.inj h
    refine node?_foldl_fill_self fun p hp => ?_
    have := List.find?_eq_none.1 hnone p hp
    cases hnode : v.node? p <;> simp_all

/-- Making a directory leaves what is there. -/
theorem node?_makeDirectory {v' : Volume} {q : Path} {node : Node}
    (h : v.makeDirectory path = .ok v') (hq : v.node? q = some node) : v'.node? q = some node := by
  unfold Volume.makeDirectory at h
  split at h
  · split at h <;> simp at h
  · obtain rfl := Except.ok.inj h
    exact node?_foldl_fill _ hq

/-- There is nothing to make where there is a directory. -/
theorem IsDirectory.makeDirectory (h : v.IsDirectory path) : v.makeDirectory path = .ok v := by
  have hnone : ((prefixes path).find? fun p => (v.node? p).any (· ≠ .directory)) = none :=
    List.find?_eq_none.2 fun p hp => by simp [h p hp]
  have hfill : ∀ ps : List Path, (∀ p ∈ ps, v.node? p = some .directory) → ps.foldl fill v = v := by
    intro ps hps
    induction ps with
    | nil => rfl
    | cons p ps ih =>
      rw [List.foldl_cons, fill, hps p (by simp), if_neg (by simp)]
      exact ih fun q hq => hps q (by simp [hq])
  rw [Volume.makeDirectory, hnone]
  exact congrArg Except.ok (hfill _ h)

end Volume

/-! ### Names of pages -/

namespace Image

theorem toList_fileName (page : Nat) :
    (fileName page).toList = Nat.toDigits 10 page ++ ['.', 'p', 'a', 'g', 'e'] := by
  have h : fileName page = page.repr ++ ".page" := rfl
  rw [h, String.toList_append, Nat.toList_repr]
  rfl

theorem toList_draftName (page : Nat) :
    (draftName page).toList =
      Nat.toDigits 10 page ++ ['.', 'p', 'a', 'g', 'e', '.', 't', 'm', 'p'] := by
  have h : draftName page = page.repr ++ ".page.tmp" := rfl
  rw [h, String.toList_append, Nat.toList_repr]
  rfl

theorem number?_toDigits (n : Nat) : number? (Nat.toDigits 10 n) = some n := by
  have hdigit : ∀ c ∈ Nat.toDigits 10 n, c.isDigit := fun c hc =>
    Nat.isDigit_of_mem_toDigits (by decide) (by decide) hc
  have hvalue : (Nat.toDigits 10 n).foldl (fun n c => 10 * n + (c.toNat - '0'.toNat)) 0 = n := by
    rw [← Nat.ofDigitChars_eq_foldl, Nat.ofDigitChars_ten_toDigits]
  have hne : Nat.toDigits 10 n ≠ [] := Nat.toDigits_ne_nil
  unfold number?
  split
  · rename_i rest heq
    have := hdigit '+' (by simp [heq])
    simp at this
  · rw [if_pos ⟨hne, List.all_eq_true.2 hdigit⟩, hvalue]

/-- The name of the file of a page tells its number. -/
theorem page?_fileName {page : Nat} (h : page < UInt64.size) :
    page? (fileName page) = some page := by
  simp [page?, toList_fileName, number?_toDigits, h]

theorem page?_draftName (page : Nat) : page? (draftName page) = none := by
  simp [page?, toList_draftName]

theorem fileName_injective : Function.Injective fileName := by
  intro p q h
  have hlist := congrArg String.toList h
  rw [toList_fileName, toList_fileName] at hlist
  have hdigits := congrArg number? (List.append_cancel_right hlist)
  simpa [number?_toDigits] using hdigits

theorem fileName_ne_draftName (p q : Nat) : fileName p ≠ draftName q := by
  intro h
  have hlast := congrArg (fun s => s.toList.getLast?) h
  simp [toList_fileName, toList_draftName] at hlast

end Image

/-! ### Folders -/

namespace Folder

variable {α : Type} {f f' : Folder} {v v' : Volume} {left : Nat}

/-- The folder has a directory, no page in it has the number of a page to come, and `left` more
pages can be numbered. -/
structure Roomy (left : Nat) (v : Volume) (f : Folder) : Prop where
  directory : v.IsDirectory f.directory
  pos : 0 < f.nextPage
  room : f.nextPage + left < UInt64.size
  used : ∀ n ∈ v.list f.directory, ∀ page ∈ Image.page? n.1, page < f.nextPage

theorem Roomy.node?_pagePath (h : f.Roomy left v) :
    v.node? (f.pagePath f.nextPage) = none := by
  have hlt : f.nextPage < UInt64.size := Nat.lt_of_le_of_lt (Nat.le_add_right _ _) h.room
  rw [Option.eq_none_iff_forall_ne_some]
  intro node hnode
  exact absurd (h.used _ (Volume.mem_list_of_node? hnode) _ (Image.page?_fileName hlt))
    (Nat.lt_irrefl _)

/-- The volume after a page was written. -/
def written (f : Folder) (v : Volume) (bytes : List UInt8) : Volume :=
  (((v.put (f.draftPath f.nextPage) (.file bytes)).erase (f.draftPath f.nextPage)).put
    (f.pagePath f.nextPage) (.file bytes))

theorem draftPath_ne_pagePath (f : Folder) (p q : Nat) : f.draftPath p ≠ f.pagePath q := by
  intro h
  have hname := List.append_cancel_left h
  exact Image.fileName_ne_draftName q p (List.singleton_inj.1 hname).symm

theorem pagePath_inj {p q : Nat} (h : f.pagePath p = f.pagePath q) : p = q :=
  Image.fileName_injective (List.singleton_inj.1 (List.append_cancel_left h))

/-- Writing the next page writes its file and nothing else, unless a directory stands in the place
of its draft. -/
theorem Roomy.writePage_of_ne (h : f.Roomy left v)
    (hdraft : v.node? (f.draftPath f.nextPage) ≠ some .directory) (bytes : List UInt8) :
    f.writePage v f.nextPage bytes none = (.ok (), f.written v bytes) := by
  have hreach : v.reach (f.draftPath f.nextPage) = .ok () := h.directory.reach _
  have hne : f.draftPath f.nextPage ≠ [] := by simp [draftPath]
  have hput : (v.put (f.draftPath f.nextPage) (.file bytes)).IsDirectory f.directory :=
    h.directory.put _ _
  have hread : (v.put (f.draftPath f.nextPage) (.file bytes)).read (f.draftPath f.nextPage) =
      .ok bytes :=
    Volume.read_of_file (hput.reach _) (by rw [Volume.node?_put hne, if_pos rfl])
  have hfree : (v.put (f.draftPath f.nextPage) (.file bytes)).node? (f.pagePath f.nextPage) =
      none := by
    rw [Volume.node?_put hne, if_neg (draftPath_ne_pagePath f _ _).symm, h.node?_pagePath]
  have hrename : (v.put (f.draftPath f.nextPage) (.file bytes)).rename
      (f.draftPath f.nextPage) (f.pagePath f.nextPage) = .ok (f.written v bytes) :=
    Volume.rename_of_none hread (hput.reach _) hfree
  simp [Folder.writePage, Volume.write_of_ne hreach hdraft, hrename]

/-- Writing the next page fails and changes nothing, or writes its file and nothing else. -/
theorem Roomy.writePage (h : f.Roomy left v) (bytes : List UInt8) :
    (∃ cause, f.writePage v f.nextPage bytes none = (.error cause, v)) ∨
      f.writePage v f.nextPage bytes none = (.ok (), f.written v bytes) := by
  have hreach : v.reach (f.draftPath f.nextPage) = .ok () := h.directory.reach _
  by_cases hdir : v.node? (f.draftPath f.nextPage) = some .directory
  · exact Or.inl ⟨.isDirectory, by simp [Folder.writePage, Volume.write_of_directory hreach hdir]⟩
  · exact Or.inr (h.writePage_of_ne hdir bytes)

/-- Writing the next page touches the paths of the page and its draft. -/
theorem node?_written_path (f : Folder) (v : Volume) (bytes : List UInt8) (p : Path) :
    (f.written v bytes).node? p = if p = f.pagePath f.nextPage then some (.file bytes)
      else if p = f.draftPath f.nextPage then none else v.node? p := by
  have hdraft : f.draftPath f.nextPage ≠ [] := by simp [draftPath]
  have hpage : f.pagePath f.nextPage ≠ [] := by simp [pagePath]
  rw [written, Volume.node?_put hpage, Volume.node?_erase hdraft, Volume.node?_put hdraft]
  by_cases hp : p = f.draftPath f.nextPage <;> simp [hp]

theorem node?_written (f : Folder) (v : Volume) (bytes : List UInt8) (p : Nat) :
    (f.written v bytes).node? (f.pagePath p) =
      if p = f.nextPage then some (.file bytes) else v.node? (f.pagePath p) := by
  rw [node?_written_path, if_neg (draftPath_ne_pagePath f _ _).symm]
  by_cases hp : p = f.nextPage
  · simp [hp]
  · rw [if_neg hp, if_neg fun heq => hp (pagePath_inj heq)]

theorem Roomy.written (h : f.Roomy (left + 1) v) (bytes : List UInt8) :
    ({ f with nextPage := f.nextPage + 1 } : Folder).Roomy left (f.written v bytes) := by
  have hroom := h.room
  refine ⟨((h.directory.put _ _).erase _).put _ _, Nat.succ_pos _, ?_, fun n hn page hpage => ?_⟩
  · simp only
    omega
  · rcases Volume.mem_list_put hn with hn | hn
    · rw [hn, Image.page?_fileName (by omega)] at hpage
      obtain rfl := Option.some.inj hpage
      exact Nat.lt_succ_self _
    · rcases Volume.mem_list_put (Volume.mem_list_erase hn) with hn | hn
      · simp [hn, Image.page?_draftName] at hpage
      · exact Nat.lt_succ_of_lt (h.used n hn page hpage)

theorem Roomy.skip (h : f.Roomy (left + 1) v) :
    ({ f with nextPage := f.nextPage + 1 } : Folder).Roomy left v := by
  have hroom := h.room
  exact ⟨h.directory, Nat.succ_pos _, by simp only; omega,
    fun n hn page hpage => Nat.lt_succ_of_lt (h.used n hn page hpage)⟩

theorem Roomy.mono {left' : Nat} (h : f.Roomy left v) (hle : left' ≤ left) : f.Roomy left' v :=
  ⟨h.directory, h.pos, Nat.lt_of_le_of_lt (Nat.add_le_add_left hle _) h.room, h.used⟩

section Entries

variable [Wire α]

/-- What a page holds depends on what stands at the path of its file. -/
theorem load_congr {v' : Volume} {page : Nat} (h : v.IsDirectory f.directory)
    (h' : v'.IsDirectory f.directory)
    (hnode : v'.node? (f.pagePath page) = v.node? (f.pagePath page))
    (n : Nat) : ({ f with nextPage := n } : Folder).load v' page =
      (f.load v page : Except StoreError (List α)) := by
  have hread : v'.read (f.pagePath page) = v.read (f.pagePath page) := by
    simp only [Volume.read, hnode]
    simp only [pagePath, h.reach, h'.reach]
  have hpath : ({ f with nextPage := n } : Folder).pagePath page = f.pagePath page := rfl
  rw [load, load, hpath, hread]

theorem load_of_read {page : Nat} {bytes : List UInt8} (h : v.read (f.pagePath page) = .ok bytes) :
    (f.load v page : Except StoreError (List α)) = Image.entries? page bytes := by
  rw [load, h]

variable [Lossless α]

/-- Writing a page uses up one number, leaves what other pages hold, and the new page holds the
entries. -/
theorem Roomy.create (h : f.Roomy (left + 1) v) {entries : List α} (hfits : Lossless.Fits entries)
    {r : Except StoreError Nat} (hcreate : f.create v entries none = (r, f', v')) :
    f'.Roomy left v' ∧
      (∀ page es, f.load v page = .ok (es : List α) → f'.load v' page = .ok es) ∧
      ∀ page, r = .ok page → f'.load v' page = .ok entries := by
  have hlt : f.nextPage + 1 < UInt64.size := by
    have := h.room
    omega
  rcases h.writePage (Image.ofEntries entries) with ⟨cause, hwrite⟩ | hwrite
  · simp only [Folder.create, hwrite, Nat.mod_eq_of_lt hlt, Prod.mk.injEq] at hcreate
    obtain ⟨rfl, rfl, rfl⟩ := hcreate
    refine ⟨h.skip, fun page es hload => ?_, fun page hpage => by simp at hpage⟩
    rw [load_congr h.directory h.directory rfl, hload]
  · simp only [Folder.create, hwrite, Nat.mod_eq_of_lt hlt, Prod.mk.injEq] at hcreate
    obtain ⟨rfl, rfl, rfl⟩ := hcreate
    have hdir := (h.written (Image.ofEntries entries)).directory
    refine ⟨h.written _, fun page es hload => ?_, fun page hpage => ?_⟩
    · have hne : page ≠ f.nextPage := by
        rintro rfl
        have hread : v.read (f.pagePath f.nextPage) = .error .notFound :=
          Volume.read_of_none (h.directory.reach _) h.node?_pagePath
        simp [Folder.load, hread] at hload
      have hnode := node?_written f v (Image.ofEntries entries) page
      rw [if_neg hne] at hnode
      rw [load_congr h.directory hdir hnode, hload]
    · obtain rfl := Except.ok.inj hpage
      have hread : (f.written v (Image.ofEntries entries)).read (f.pagePath f.nextPage) =
          .ok (Image.ofEntries entries) :=
        Volume.read_of_file (hdir.reach _) (by rw [node?_written, if_pos rfl])
      exact (load_of_read hread).trans (Image.entries?_ofEntries hfits _)

end Entries

/-! ### Opening -/

theorem foldl_max_lt_iff {ns : List Nat} {m k : Nat} :
    ns.foldl max m < k ↔ m < k ∧ ∀ n ∈ ns, n < k := by
  induction ns generalizing m with
  | nil => simp
  | cons n ns ih => rw [List.foldl_cons, ih, Nat.max_lt, List.forall_mem_cons, and_assoc]

/-- A directory that is opened is roomy for as many pages as there are numbers left, if the next
page has not got the number 0 again. -/
theorem roomy_openAt {path : Path} (h : openAt v path = .ok (f, v')) (hpos : 0 < f.nextPage)
    (hroom : f.nextPage + left < UInt64.size) : f.Roomy left v' := by
  unfold openAt at h
  split at h
  · rename_i v'' hmake
    obtain ⟨rfl, rfl⟩ := Prod.mk.inj (Except.ok.inj h)
    refine ⟨Volume.isDirectory_makeDirectory hmake, hpos, hroom, fun n hn page hpage => ?_⟩
    set pages := (v''.list path).filterMap fun n => Image.page? n.1 with hpages
    have hmem : page ∈ pages := List.mem_filterMap.2 ⟨n, hn, hpage⟩
    have hle : page < pages.foldl max 0 + 1 :=
      (foldl_max_lt_iff.1 (Nat.lt_succ_self _)).2 page hmem
    have hlt : pages.foldl max 0 < UInt64.size := by
      refine foldl_max_lt_iff.2 ⟨by decide, fun q hq => ?_⟩
      obtain ⟨m, -, hm⟩ := List.mem_filterMap.1 hq
      unfold Image.page? at hm
      split at hm
      · simpa using (Option.filter_eq_some_iff.1 hm).2
      · simp at hm
    have hnext : (⟨path, firstFree v'' path⟩ : Folder).nextPage =
        (pages.foldl max 0 + 1) % UInt64.size := rfl
    rw [hnext] at hpos ⊢
    rcases Nat.lt_or_eq_of_le (Nat.succ_le_of_lt hlt) with hsmall | hwrap
    · rwa [Nat.mod_eq_of_lt hsmall]
    · simp [show pages.foldl max 0 + 1 = UInt64.size from hwrap] at hpos
  · simp at h

/-- A directory in use may be closed and opened again. -/
theorem Roomy.reopen (h : f.Roomy left v) : ∃ n, openAt v f.directory = .ok (⟨f.directory, n⟩, v) ∧
    Roomy left v ⟨f.directory, n⟩ := by
  have hopen : openAt v f.directory = .ok (⟨f.directory, firstFree v f.directory⟩, v) := by
    rw [openAt, h.directory.makeDirectory]
  refine ⟨_, hopen, ?_⟩
  have hlt : ((v.list f.directory).filterMap fun n => Image.page? n.1).foldl max 0 <
      f.nextPage := by
    refine foldl_max_lt_iff.2 ⟨h.pos, fun page hpage => ?_⟩
    obtain ⟨n, hn, hpage⟩ := List.mem_filterMap.1 hpage
    exact h.used n hn page hpage
  have hroom := h.room
  have hnext : firstFree v f.directory =
      ((v.list f.directory).filterMap fun n => Image.page? n.1).foldl max 0 + 1 :=
    Nat.mod_eq_of_lt (by omega)
  refine roomy_openAt hopen ?_ ?_ <;> simp only [hnext] <;> omega

end Folder

/-! ### Stores -/

namespace Store

variable {K V : Type} {s s' : Store K V} {v v' : Volume} {left : Option Nat} {page : Nat}

/-- What is kept in a folder is kept there for good.  `left` is the number of pages that may still
come, and is not needed where pages are in memory. -/
def Roomy (left : Option Nat) (v : Volume) (s : Store K V) : Prop :=
  match s.backing with
  | .memory _ => True
  | .folder f => ∃ n ∈ left, f.Roomy n v

theorem Roomy.congr (h : s.Roomy left v) (hs : s'.backing = s.backing) : s'.Roomy left v := by
  rwa [Roomy, hs]

theorem Roomy.mono {limit : Option Nat} {m n : Nat} (h : s.Roomy (limit.map (· - m)) v)
    (hle : m ≤ n) : s.Roomy (limit.map (· - n)) v := by
  unfold Roomy at h ⊢
  split at h
  · trivial
  · obtain ⟨k, hk, hf⟩ := h
    obtain ⟨k, rfl, rfl⟩ := Option.map_eq_some_iff.1 hk
    exact ⟨_, rfl, hf.mono (Nat.sub_le_sub_left hle k)⟩

variable [Wire K] [Wire V]

theorem read_congr (h : s'.backing = s.backing) : s'.read v page = s.read v page := by
  rw [read, read, h]

theorem backing_load (s : Store K V) (v : Volume) (page : Nat) :
    (s.load v page).2.backing = s.backing := by
  unfold load
  split <;> rfl

/-- A page is read as it is, unless the call is refused. -/
theorem load_eq_ok {es : List (K × V)} (h : (s.load v page).1 = .ok es) :
    s.read v page = .ok es := by
  unfold load at h
  split at h
  · simp at h
  · exact h

theorem load_eq_error {cause : StoreError} (h : (s.load v page).1 = .error cause) :
    cause = .io .injected ∨ s.read v page = .error cause := by
  unfold load at h
  split at h
  · exact Or.inl (Except.error.inj h).symm
  · exact Or.inr h

variable [Lossless K] [Lossless V]

/-- Writing a page leaves what other pages hold, and the new page holds the entries. -/
theorem Roomy.create {limit : Option Nat} {n : Nat} {entries : List (K × V)}
    {r : Except StoreError Nat} (h : s.Roomy (limit.map (· - n)) v) (hroom : ∀ m ∈ limit, n < m)
    (hfits : limit.isSome → Lossless.Fits entries) (hcreate : s.create v entries = (r, s', v')) :
    s'.Roomy (limit.map (· - (n + 1))) v' ∧
      (∀ page es, s.read v page = .ok es → s'.read v' page = .ok es) ∧
      ∀ page, r = .ok page → s'.read v' page = .ok entries := by
  unfold Store.create at hcreate
  split at hcreate
  · simp only [Prod.mk.injEq] at hcreate
    obtain ⟨rfl, rfl, rfl⟩ := hcreate
    refine ⟨(h.mono (Nat.le_succ n)).congr rfl, fun page es hread => ?_, fun page hpage => ?_⟩
    · rwa [read_congr rfl]
    · simp at hpage
  · obtain ⟨backing, faults⟩ := s
    cases backing with
    | memory pages =>
      simp only [append, Prod.mk.injEq] at hcreate
      obtain ⟨rfl, rfl, rfl⟩ := hcreate
      refine ⟨trivial, fun page es hread => ?_, fun page hpage => ?_⟩
      · cases page with
        | zero => simp [Store.read] at hread
        | succ i =>
          cases hi : pages[i]? with
          | none => simp [Store.read, hi] at hread
          | some found =>
            obtain rfl : found = es := by simpa [Store.read, hi] using hread
            have hlt : i < pages.length := (List.getElem?_eq_some_iff.1 hi).1
            simp [Store.read, List.getElem?_append_left hlt, hi]
      · obtain rfl := Except.ok.inj hpage
        simp [Store.read]
    | folder f =>
      obtain ⟨left, hleft, hf⟩ := h
      obtain ⟨m, rfl, rfl⟩ := Option.map_eq_some_iff.1 hleft
      have hone : m - n = (m - (n + 1)) + 1 := by
        have := hroom m rfl
        omega
      generalize hfolder : f.create v entries none = out at hcreate
      obtain ⟨r', f', v''⟩ := out
      simp only [append, hfolder, Prod.mk.injEq] at hcreate
      obtain ⟨rfl, rfl, rfl⟩ := hcreate
      obtain ⟨hroomy, hother, hnew⟩ := (hone ▸ hf).create (hfits rfl) hfolder
      exact ⟨⟨_, rfl, hroomy⟩, hother, hnew⟩

end Store

end PagedMap
