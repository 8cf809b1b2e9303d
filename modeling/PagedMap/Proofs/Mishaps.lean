import Mathlib
import PagedMap.Proofs.Folders

/-!
# Pages outlive mishaps

Folders are opened one after another on a volume, which may hold files and directories of any names,
and pages are created in the folder that is open, with or without a mishap (`Archive.run`).

Creating a page is about two paths, that of the page and that of its draft
(`Folder.writePage_cases`).  As long as the numbers of 64 bits do not run out, nothing stands at the
first of them (`Folder.Roomy.node?_pagePath`), and only a page that is complete comes to stand
there.  So whatever is on the volume stays there, apart from a file in the place of the draft
(`Volume.Spares`).  No page has the name of a draft, and the pages that were created stay on the
volume with the entries that they were created with.

Main statement: `Archive.unharmed_run`.
-/

namespace PagedMap

/-! ### What writing and renaming do -/

namespace Volume

variable {v v' v'' : Volume} {path p q draft : Path} {name : String} {bytes : List UInt8}

/-- A path is within reach if its file would lie in a directory. -/
theorem isDirectory_of_reach (h : v.reach (path ++ [name]) = .ok ()) : v.IsDirectory path := by
  rw [reach, prefixes_append_singleton, List.dropLast_concat] at h
  split at h
  · rename_i hnone
    intro p hp
    simpa using List.find?_eq_none.1 hnone p hp
  · split at h <;> simp at h

theorem read_eq_ok (h : v.read p = .ok bytes) : v.node? p = some (.file bytes) := by
  cases hreach : v.reach p with
  | error cause =>
    rw [read, hreach] at h
    cases h
  | ok _ =>
    rw [read, hreach] at h
    cases hnode : v.node? p with
    | none =>
      rw [hnode] at h
      cases h
    | some node =>
      rw [hnode] at h
      cases node with
      | directory => cases h
      | file found =>
        obtain rfl : found = bytes := Except.ok.inj h
        rfl

theorem write_eq_ok (h : v.write p bytes = .ok v') :
    v.reach p = .ok () ∧ v.node? p ≠ some .directory ∧ v' = v.put p (.file bytes) := by
  cases hreach : v.reach p with
  | error cause =>
    rw [write, hreach] at h
    cases h
  | ok _ =>
    by_cases hdir : v.node? p = some .directory
    · rw [write_of_directory hreach hdir] at h
      cases h
    · rw [write_of_ne hreach hdir] at h
      exact ⟨rfl, hdir, (Except.ok.inj h).symm⟩

theorem rename_eq_ok (h : v.rename p q = .ok v') : ∃ bytes, v.node? p = some (.file bytes) ∧
    v.reach q = .ok () ∧ v' = (v.erase p).put q (.file bytes) := by
  cases hread : v.read p with
  | error cause =>
    rw [rename, hread] at h
    cases h
  | ok bytes =>
    cases hreach : v.reach q with
    | error cause =>
      rw [rename, hread] at h
      change (v.reach q >>= fun _ => _) = _ at h
      rw [hreach] at h
      cases h
    | ok _ =>
      rw [rename, hread] at h
      change (v.reach q >>= fun _ => _) = _ at h
      rw [hreach] at h
      cases hnode : v.node? q with
      | none =>
        rw [hnode] at h
        exact ⟨bytes, read_eq_ok hread, rfl, (Except.ok.inj h).symm⟩
      | some node =>
        rw [hnode] at h
        cases node with
        | directory => cases h
        | file _ => exact ⟨bytes, read_eq_ok hread, rfl, (Except.ok.inj h).symm⟩

/-- What stands on the volume stays as it is, but for a file in the place of a draft. -/
def Spares (draft : Path) (v v' : Volume) : Prop :=
  ∀ p node, v.node? p = some node → (p = draft → node = .directory) → v'.node? p = some node

/-- What is spared is not in the place of a draft, unless a directory is. -/
theorem ne_draft {node : Node} (hdraft : v.node? draft ≠ some .directory)
    (hp : v.node? p = some node) (hfile : p = draft → node = .directory) : p ≠ draft := by
  rintro rfl
  exact hdraft (hfile rfl ▸ hp)

theorem Spares.refl (draft : Path) (v : Volume) : v.Spares draft v := fun _ _ h _ => h

theorem Spares.isDirectory (h : v.Spares draft v') (hpath : v.IsDirectory path) :
    v'.IsDirectory path := fun p hp => h p _ (hpath p hp) fun _ => rfl

end Volume

namespace Folder

variable {f f' : Folder} {v v' : Volume} {bytes : List UInt8} {mishap : Option Mishap}

/-- A page is written as a whole under its name, or it is not, and then a part of it may be left in
its draft. -/
theorem writePage_cases {r : Except IoCause Unit}
    (h : f.writePage v f.nextPage bytes mishap = (r, v')) :
    (∃ cause, r = .error cause ∧ (v' = v ∨ v.node? (f.draftPath f.nextPage) ≠ some .directory ∧
      ∃ part, v' = v.put (f.draftPath f.nextPage) (.file part))) ∨
      r = .ok () ∧ v.IsDirectory f.directory ∧
        v.node? (f.draftPath f.nextPage) ≠ some .directory ∧ v' = f.written v bytes := by
  unfold writePage at h
  split at h
  · obtain ⟨rfl, rfl⟩ := Prod.mk.inj h
    exact Or.inl ⟨_, rfl, Or.inl rfl⟩
  · rename_i written
    split at h
    · rename_i hwrite
      obtain ⟨rfl, rfl⟩ := Prod.mk.inj h
      obtain ⟨-, hdraft, rfl⟩ := Volume.write_eq_ok hwrite
      exact Or.inl ⟨_, rfl, Or.inr ⟨hdraft, _, rfl⟩⟩
    · obtain ⟨rfl, rfl⟩ := Prod.mk.inj h
      exact Or.inl ⟨_, rfl, Or.inl rfl⟩
  · split at h
    · obtain ⟨rfl, rfl⟩ := Prod.mk.inj h
      exact Or.inl ⟨_, rfl, Or.inl rfl⟩
    · rename_i hwrite
      obtain ⟨hreach, hdraft, rfl⟩ := Volume.write_eq_ok hwrite
      split at h
      · obtain ⟨rfl, rfl⟩ := Prod.mk.inj h
        exact Or.inl ⟨_, rfl, Or.inr ⟨hdraft, _, rfl⟩⟩
      · split at h
        · rename_i hrename
          obtain ⟨rfl, rfl⟩ := Prod.mk.inj h
          obtain ⟨found, hfound, -, rfl⟩ := Volume.rename_eq_ok hrename
          obtain rfl : found = bytes := by
            simpa [Volume.node?_put (show f.draftPath f.nextPage ≠ [] by simp [draftPath]),
              eq_comm] using hfound
          exact Or.inr ⟨rfl, Volume.isDirectory_of_reach hreach, hdraft, rfl⟩
        · obtain ⟨rfl, rfl⟩ := Prod.mk.inj h
          exact Or.inl ⟨_, rfl, Or.inr ⟨hdraft, _, rfl⟩⟩

/-- A draft is no page. -/
theorem Roomy.put_draft {left : Nat} (h : f.Roomy left v) (page : Nat) (node : Node) :
    f.Roomy left (v.put (f.draftPath page) node) := by
  refine ⟨h.directory.put _ _, h.pos, h.room, fun n hn found hfound => ?_⟩
  rcases Volume.mem_list_put hn with hn | hn
  · simp [hn, Image.page?_draftName] at hfound
  · exact h.used n hn found hfound

/-- Writing the next page spares all but its draft, as nothing stood in the place of the page. -/
theorem Roomy.spares_written {left : Nat} (h : f.Roomy left v)
    (hdraft : v.node? (f.draftPath f.nextPage) ≠ some .directory) (bytes : List UInt8) :
    v.Spares (f.draftPath f.nextPage) (f.written v bytes) := by
  intro p node hp hfile
  have hpage : p ≠ f.pagePath f.nextPage := by
    rintro rfl
    simp [h.node?_pagePath] at hp
  rw [node?_written_path, if_neg hpage, if_neg (Volume.ne_draft hdraft hp hfile), hp]

section Entries

variable {α : Type} [Wire α] {entries : List α}

/-- Creating a page uses up the next number and spares all but the draft.  If it fails, it changes
nothing but the draft; if it succeeds, the image of the entries stands in the place of the page. -/
theorem Roomy.create_cases {left : Nat} (h : f.Roomy (left + 1) v) {r : Except StoreError Nat}
    (hcreate : f.create v entries mishap = (r, f', v')) :
    f' = { f with nextPage := f.nextPage + 1 } ∧ f'.Roomy left v' ∧
      v.Spares (f.draftPath f.nextPage) v' ∧
      ((∃ cause, r = .error cause ∧ ∀ p ≠ f.draftPath f.nextPage, v'.node? p = v.node? p) ∨
        r = .ok f.nextPage ∧
          v'.node? (f.pagePath f.nextPage) = some (.file (Image.ofEntries entries))) := by
  have hne : f.draftPath f.nextPage ≠ [] := by simp [draftPath]
  have hlt : f.nextPage + 1 < UInt64.size := by
    have := h.room
    omega
  simp only [Folder.create, Nat.mod_eq_of_lt hlt] at hcreate
  generalize hwrite : f.writePage v f.nextPage (Image.ofEntries entries) mishap = out at hcreate
  obtain ⟨r', v''⟩ := out
  rcases writePage_cases hwrite with ⟨cause, rfl, rfl | ⟨hdraft, part, rfl⟩⟩ |
    ⟨rfl, -, hdraft, rfl⟩
  · simp only [Prod.mk.injEq] at hcreate
    obtain ⟨rfl, rfl, rfl⟩ := hcreate
    exact ⟨rfl, h.skip, .refl _ _, Or.inl ⟨_, rfl, fun _ _ => rfl⟩⟩
  · simp only [Prod.mk.injEq] at hcreate
    obtain ⟨rfl, rfl, rfl⟩ := hcreate
    refine ⟨rfl, (h.put_draft _ _).skip, fun p node hp hfile => ?_, Or.inl ⟨_, rfl, fun p hp => ?_⟩⟩
    · rw [Volume.node?_put hne, if_neg (Volume.ne_draft hdraft hp hfile), hp]
    · rw [Volume.node?_put hne, if_neg hp]
  · simp only [Prod.mk.injEq] at hcreate
    obtain ⟨rfl, rfl, rfl⟩ := hcreate
    refine ⟨rfl, h.written _, h.spares_written hdraft _, Or.inr ⟨rfl, ?_⟩⟩
    rw [node?_written, if_pos rfl]

end Entries

theorem openAt_eq_ok {path : Path} (h : openAt v path = .ok (f, v')) :
    v.makeDirectory path = .ok v' ∧ f = ⟨path, firstFree v' path⟩ := by
  unfold openAt at h
  split at h
  · rename_i hmake
    obtain ⟨rfl, rfl⟩ := Prod.mk.inj (Except.ok.inj h)
    exact ⟨hmake, rfl⟩
  · exact nomatch h

/-- A folder that is opened has room if the pages that are present do not use up the numbers. -/
theorem roomy_openAt_of_lt {path : Path} (h : openAt v path = .ok (f, v'))
    (hpages : ∀ n ∈ v.list path, ∀ page ∈ Image.page? n.1, page < noPage) : f.Roomy 0 v' := by
  obtain ⟨hmake, hf⟩ := openAt_eq_ok h
  have hmax : ((v.list path).filterMap fun n => Image.page? n.1).foldl max 0 < noPage := by
    refine foldl_max_lt_iff.2 ⟨by decide, fun page hpage => ?_⟩
    obtain ⟨n, hn, hpage⟩ := List.mem_filterMap.1 hpage
    exact hpages n hn page hpage
  have hsize : noPage + 1 = UInt64.size := rfl
  have hnext : f.nextPage =
      ((v.list path).filterMap fun n => Image.page? n.1).foldl max 0 + 1 := by
    rw [hf, firstFree, Volume.list_makeDirectory hmake]
    exact Nat.mod_eq_of_lt (by omega)
  exact roomy_openAt h (by omega) (by omega)

end Folder

/-! ### Opening and creating -/

/-- A page that was created. -/
structure Made (α : Type) where
  directory : Path
  page : Nat
  entries : List α

/-- What is done with folders. -/
inductive Errand (α : Type) where
  | openAt (path : Path)
  | create (entries : List α) (mishap : Option Mishap)

/-- A volume and the folder that is open on it, with a record of what was done: the numbers that
this folder gave to pages or lost, and all pages that were created, both from the latest on. -/
structure Archive (α : Type) where
  volume : Volume
  folder : Option Folder := none
  numbers : List Nat := []
  pages : List (Made α) := []

namespace Archive

variable {α : Type} [Wire α] {s : Archive α} {errand : Errand α} {errands : List (Errand α)}

/-- Opens another folder in place of the one that is open, or creates a page in that one. -/
def step (s : Archive α) : Errand α → Archive α
  | .openAt path =>
    match Folder.openAt s.volume path with
    | .ok (f, v) => { s with volume := v, folder := some f, numbers := [] }
    | .error _ => { s with folder := none, numbers := [] }
  | .create entries mishap =>
    match s.folder with
    | none => s
    | some f =>
      match f.create s.volume entries mishap with
      | (.ok page, f', v) =>
        ⟨v, some f', f.nextPage :: s.numbers, ⟨f.directory, page, entries⟩ :: s.pages⟩
      | (.error _, f', v) => ⟨v, some f', f.nextPage :: s.numbers, s.pages⟩

/-- Does one errand after another. -/
def run (s : Archive α) (errands : List (Errand α)) : Archive α := errands.foldl step s

/-- The numbers of 64 bits suffice for an errand: no page that is present when a folder is opened,
and no page that is to be created, has the last of them. -/
def Suffices (s : Archive α) : Errand α → Prop
  | .openAt path => ∀ n ∈ s.volume.list path, ∀ page ∈ Image.page? n.1, page < noPage
  | .create _ _ => ∀ f ∈ s.folder, f.nextPage < noPage

/-- The numbers of 64 bits suffice for each errand when its turn comes. -/
def SufficesAll (s : Archive α) : List (Errand α) → Prop
  | [] => True
  | errand :: later => s.Suffices errand ∧ (s.step errand).SufficesAll later

instance (s : Archive α) : (errand : Errand α) → Decidable (s.Suffices errand)
  | .openAt path => inferInstanceAs (Decidable (∀ n ∈ s.volume.list path,
      ∀ page ∈ Image.page? n.1, page < noPage))
  | .create _ _ => inferInstanceAs (Decidable (∀ f ∈ s.folder, f.nextPage < noPage))

/-- Whether the numbers suffice is found by doing the errands. -/
def decidableSufficesAll (s : Archive α) : (errands : List (Errand α)) →
    Decidable (s.SufficesAll errands)
  | [] => .isTrue trivial
  | errand :: later =>
    have := decidableSufficesAll (s.step errand) later
    inferInstanceAs (Decidable (_ ∧ _))

instance (s : Archive α) (errands : List (Errand α)) : Decidable (s.SufficesAll errands) :=
  s.decidableSufficesAll errands

/-- What every errand keeps. -/
structure Intact (s : Archive α) : Prop where
  roomy : ∀ f ∈ s.folder, f.Roomy 0 s.volume
  numbers : s.numbers.Pairwise (· > ·)
  below : ∀ f ∈ s.folder, ∀ n ∈ s.numbers, n < f.nextPage
  directory : ∀ made ∈ s.pages, s.volume.IsDirectory made.directory
  image : ∀ made ∈ s.pages, s.volume.node? (made.directory ++ [Image.fileName made.page]) =
    some (.file (Image.ofEntries made.entries))

theorem intact_start (volume : Volume) : ({ volume := volume } : Archive α).Intact :=
  ⟨by simp, .nil, by simp, by simp, by simp⟩

/-- The open folder has room for one more page. -/
theorem Intact.roomy_succ (h : s.Intact) {f : Folder} (hf : f ∈ s.folder)
    (hlt : f.nextPage < noPage) : f.Roomy (0 + 1) s.volume :=
  ⟨(h.roomy f hf).directory, (h.roomy f hf).pos, Nat.add_lt_of_lt_sub hlt, (h.roomy f hf).used⟩

/-- A page that was created is spared, as its name is no draft's. -/
theorem Intact.spared (h : s.Intact) {f : Folder} {page : Nat} {v' : Volume}
    (hspares : s.volume.Spares (f.draftPath page) v') {made : Made α} (hmade : made ∈ s.pages) :
    v'.IsDirectory made.directory ∧ v'.node? (made.directory ++ [Image.fileName made.page]) =
      some (.file (Image.ofEntries made.entries)) := by
  refine ⟨hspares.isDirectory (h.directory made hmade), hspares _ _ (h.image made hmade) ?_⟩
  intro heq
  have hname := (List.append_inj' heq rfl).2
  exact absurd (List.singleton_inj.1 hname) (Image.fileName_ne_draftName _ _)

/-- Opening a folder only makes directories, and starts a new list of numbers. -/
theorem Intact.openAt {path : Path} (h : s.Intact) (hsuffices : s.Suffices (.openAt path)) :
    (s.step (.openAt path)).Intact := by
  cases hopen : Folder.openAt s.volume path with
  | error _ =>
    have hstep : s.step (.openAt path) = { s with folder := none, numbers := [] } := by
      simp only [Archive.step, hopen]
    rw [hstep]
    exact ⟨by simp, .nil, by simp, h.directory, h.image⟩
  | ok out =>
    obtain ⟨f, v⟩ := out
    have hstep : s.step (.openAt path) =
        { s with volume := v, folder := some f, numbers := [] } := by
      simp only [Archive.step, hopen]
    have hspares : s.volume.Spares (f.draftPath f.nextPage) v := fun _ _ hp _ =>
      Volume.node?_makeDirectory (Folder.openAt_eq_ok hopen).1 hp
    rw [hstep]
    refine ⟨?_, .nil, by simp, fun made hmade => (h.spared hspares hmade).1,
      fun made hmade => (h.spared hspares hmade).2⟩
    rintro _ ⟨rfl⟩
    exact Folder.roomy_openAt_of_lt hopen hsuffices

/-- Creating a page spares the pages that were created, and gives or loses the next number. -/
theorem Intact.create {entries : List α} {mishap : Option Mishap} (h : s.Intact)
    (hsuffices : s.Suffices (.create entries mishap)) :
    (s.step (.create entries mishap)).Intact := by
  cases hfolder : s.folder with
  | none =>
    have hstep : s.step (.create entries mishap) = s := by simp only [Archive.step, hfolder]
    rwa [hstep]
  | some f =>
    have hnumbers : (f.nextPage :: s.numbers).Pairwise (· > ·) :=
      List.pairwise_cons.2 ⟨h.below f hfolder, h.numbers⟩
    have hbelow : ∀ n ∈ f.nextPage :: s.numbers, n < f.nextPage + 1 := by
      intro n hn
      rcases List.mem_cons.1 hn with rfl | hn
      · exact Nat.lt_succ_self _
      · exact Nat.lt_succ_of_lt (h.below f hfolder n hn)
    generalize hcreate : f.create s.volume entries mishap = out
    obtain ⟨r, f', v⟩ := out
    obtain ⟨rfl, hroomy, hspares, hresult⟩ :=
      (h.roomy_succ hfolder (hsuffices f hfolder)).create_cases hcreate
    -- the record of pages is the old one, or has the page just created in front
    suffices hpages : ∀ pages : List (Made α), (∀ made ∈ pages, v.IsDirectory made.directory ∧
        v.node? (made.directory ++ [Image.fileName made.page]) =
          some (.file (Image.ofEntries made.entries))) →
        Intact ⟨v, some { f with nextPage := f.nextPage + 1 }, f.nextPage :: s.numbers, pages⟩ by
      rcases hresult with ⟨cause, rfl, -⟩ | ⟨rfl, himage⟩ <;>
        simp only [Archive.step, hfolder, hcreate]
      · exact hpages _ fun made hmade => h.spared hspares hmade
      · refine hpages _ fun made hmade => ?_
        rcases List.mem_cons.1 hmade with rfl | hmade
        · exact ⟨hroomy.directory, himage⟩
        · exact h.spared hspares hmade
    intro pages hpages
    refine ⟨?_, hnumbers, ?_, fun made hmade => (hpages made hmade).1,
      fun made hmade => (hpages made hmade).2⟩
    · rintro _ ⟨rfl⟩
      exact hroomy
    · rintro _ ⟨rfl⟩
      exact hbelow

/-- An errand keeps the pages that were created, and the numbers of the open folder in order. -/
theorem Intact.step (h : s.Intact) (hsuffices : s.Suffices errand) : (s.step errand).Intact := by
  cases errand with
  | openAt path => exact h.openAt hsuffices
  | create entries mishap => exact h.create hsuffices

theorem Intact.run (h : s.Intact) (hsuffices : s.SufficesAll errands) : (s.run errands).Intact := by
  induction errands generalizing s with
  | nil => exact h
  | cons errand later ih => exact ih (h.step hsuffices.1) hsuffices.2

/-- Whatever a volume holds at first, and whatever was opened and created on it since, with or
without mishaps, as long as the numbers of 64 bits suffice:
creating one more page leaves every file and directory as it is, apart from a file at the path of
the draft, where no page is (`Folder.draftPath_ne_pagePath`), and adds nothing else if it fails; the
open folder gives or loses ascending numbers; and every page that was created is read with its
entries from any folder on its directory. -/
theorem unharmed_run [Lossless α] {volume : Volume} {errands : List (Errand α)}
    (hsuffices : ({ volume := volume } : Archive α).SufficesAll errands)
    (hrun : ({ volume := volume } : Archive α).run errands = s) :
    (∀ f ∈ s.folder, f.nextPage < noPage → ∀ (entries : List α) (mishap : Option Mishap) r f' v',
      f.create s.volume entries mishap = (r, f', v') →
        (∀ p node, p ≠ f.draftPath f.nextPage → s.volume.node? p = some node →
          v'.node? p = some node) ∧
        (∀ cause, r = .error cause → ∀ p ≠ f.draftPath f.nextPage,
          v'.node? p = s.volume.node? p) ∧
        (∀ page, r = .ok page → page = f.nextPage) ∧ f.nextPage < f'.nextPage) ∧
      s.numbers.Pairwise (· > ·) ∧ (∀ f ∈ s.folder, ∀ n ∈ s.numbers, n < f.nextPage) ∧
      ∀ made ∈ s.pages, Lossless.Fits made.entries →
        ∀ f : Folder, f.directory = made.directory →
          f.load s.volume made.page = .ok made.entries := by
  have hintact : s.Intact := hrun ▸ (intact_start volume).run hsuffices
  refine ⟨fun f hf hlt entries mishap r f' v' hcreate => ?_, hintact.numbers, hintact.below,
    fun made hmade hfits f hf => ?_⟩
  · obtain ⟨rfl, -, hspares, hresult⟩ := (hintact.roomy_succ hf hlt).create_cases hcreate
    refine ⟨fun p node hp hnode => hspares p node hnode fun heq => absurd heq hp, ?_, ?_,
      Nat.lt_succ_self _⟩
    · rintro cause rfl
      rcases hresult with ⟨-, -, hsame⟩ | ⟨hok, -⟩
      · exact hsame
      · exact nomatch hok
    · rintro page rfl
      rcases hresult with ⟨cause, herror, -⟩ | ⟨hok, -⟩
      · exact nomatch herror
      · exact Except.ok.inj hok
  · have hread : s.volume.read (f.pagePath made.page) = .ok (Image.ofEntries made.entries) := by
      refine Volume.read_of_file ?_ ?_
      · exact (hf ▸ hintact.directory made hmade : s.volume.IsDirectory f.directory).reach _
      · rw [Folder.pagePath, hf, hintact.image made hmade]
    exact (Folder.load_of_read hread).trans (Image.entries?_ofEntries hfits _)

/-- A directory with odd names, one of them in the way of a draft, and three failures. -/
theorem unharmed_run_mishaps :
    let volume : Volume := { nodes := [(["d"], .directory), (["d", "03.page"], .file [7]),
      (["d", "+4.page"], .directory), (["d", "5.page.tmp"], .directory),
      (["d", "6.page.tmp"], .file [1, 2]), (["d", "notes"], .file [])] }
    let errands : List (Errand ((Shape.uint .w8).Datum × Shape.bool.Datum)) :=
      [.openAt ["d"], .create [] none, .create [(1#8, true)] none, .create [] (some (.atWriting 2)),
        .openAt ["d"], .create [] (some .atRenaming), .create [(2#8, false)] none]
    let s := ({ volume := volume } : Archive _).run errands
    s.numbers = [8, 7] ∧ s.pages.map (·.page) = [8, 6] ∧
      ∀ made ∈ s.pages, (⟨["d"], 0⟩ : Folder).load s.volume made.page = .ok made.entries := by
  intro volume errands s
  have hsuffices : ({ volume := volume } : Archive _).SufficesAll errands := by decide +kernel
  have hnumbers : s.numbers = [8, 7] := by decide +kernel
  have hpages : s.pages.map (·.page) = [8, 6] := by decide +kernel
  have hdirectory : ∀ made ∈ s.pages, made.directory = ["d"] := by decide +kernel
  have hlengths : ∀ made ∈ s.pages, made.entries.length < UInt64.size := by decide +kernel
  obtain ⟨-, -, -, hload⟩ := unharmed_run hsuffices (s := s) rfl
  refine ⟨hnumbers, hpages, fun made hmade => ?_⟩
  have hfits : Lossless.Fits made.entries := ⟨hlengths made hmade, fun _ _ => ⟨trivial, trivial⟩⟩
  exact hload made hmade hfits _ (hdirectory made hmade).symm

end Archive

end PagedMap
