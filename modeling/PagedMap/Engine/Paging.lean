import PagedMap.Engine

/-!
# Blocks in and out of memory

A block is read from its page when its entries are needed (`Engine.access`), and its policy is
told of every access afterwards (`Engine.touch`).  The policy may then name a page that has to
leave: its block is written to a page of a new number if it is dirty (`Engine.persist`), and its
entries leave memory (`Engine.unload`).  If writing fails the block stays in memory, and its
policy, which does not have its page any more, is told of it at the next access.
-/

namespace PagedMap.Engine

variable {K V : Type} [Wire K] [Wire V]

/-! ## Calls of a page store -/

/-- Reads a page of a store. -/
def loadPage (store page : Nat) (e : Engine K V) :
    Except StoreError (List (K × V)) × Engine K V :=
  match e.stores[store]? with
  | none => (.error (.pageNotFound page), e)
  | some s =>
    let (result, s) := s.load e.volume page
    (result, { e with stores := e.stores.set store s }.record
      (.pageLoaded store page (result.map List.length)))

/-- Writes entries as a new page of a store. -/
def createPage (store : Nat) (entries : List (K × V)) (e : Engine K V) :
    Except StoreError Nat × Engine K V :=
  match e.stores[store]? with
  | none => (.error (.pageNotFound noPage), e)
  | some s =>
    let (result, s, volume) := s.create e.volume entries
    (result, { e with stores := e.stores.set store s, volume }.record
      (.pageCreated store entries result))

/-! ## Out of memory -/

/-- Writes the entries of a block as a new page, if it is dirty and they are in memory. -/
def persist (ref : BlockRef) : Act K V Unit := do
  let some b := (← get).blocks[ref]? | return
  let some entries := b.entries | return
  if b.dirty then
    let page ← Act.ofStore (createPage b.home.store entries)
    modify (setBlock ref { b with page, dirty := false })
    modify (notify (.blockPersisted b.id page entries.length))

/-- Takes the entries of a block out of memory and tells whether there were any.  `page` has to
be the number of the block. -/
def unload (ref : BlockRef) (page : Nat) : Act K V Bool := do
  let some b := (← get).blocks[ref]? | return false
  if page ≠ b.id then throw (.pageMismatch b.id page)
  if b.entries.isNone then return false
  modify (setBlock ref { b with tracked := false })
  persist ref
  modify fun e => { e with blocks := e.blocks.modify ref ({ · with entries := none }) }
  modify (notify (.blockUnloaded b.id))
  return true

/-- Asks a page to leave memory and tells an observer what came of it.  Nothing happens to a page
whose block is out of reach. -/
def evict (page : Page BlockRef) (e : Engine K V) : Engine K V :=
  if e.isLive page.owner then
    let (outcome, e) := Act.run (unload page.owner page.key.pageId) e
    e.notify (.ofEviction page.key outcome)
  else e

/-! ## Calls of a replacement policy -/

/-- Replaces a policy. -/
def setPolicy (policy : Nat) (p : Policy BlockRef) (e : Engine K V) : Engine K V :=
  { e with policies := e.policies.set policy p }

/-- Tells a policy of a page that came in, and evicts the page that has to leave for it. -/
def addPage (policy : Nat) (page : Page BlockRef) (e : Engine K V) : Engine K V :=
  let e := e.record (.reported .add policy page)
  match e.policies[policy]? with
  | none => e
  | some p =>
    match p.add page with
    | (p, some victim) => (e.setPolicy policy p).evict victim
    | (p, none) => e.setPolicy policy p

omit [Wire K] [Wire V] in
/-- Tells a policy of a use of a page. -/
def hitPage (policy : Nat) (page : Page BlockRef) (e : Engine K V) : Engine K V :=
  let e := e.record (.reported .hit policy page)
  match e.policies[policy]? with
  | none => e
  | some p => e.setPolicy policy (p.hit page.key)

omit [Wire K] [Wire V] in
/-- Tells a policy that a page is given up. -/
def removePage (policy : Nat) (page : Page BlockRef) (e : Engine K V) : Engine K V :=
  let e := e.record (.reported .remove policy page)
  match e.policies[policy]? with
  | none => e
  | some p => e.setPolicy policy (p.remove page.key)

/-! ## Into memory -/

/-- The entries of a block, which are read from its page if they are not in memory. -/
def access [LE K] [DecidableLE K] (ref : BlockRef) (b : Block K V) : Act K V (Entries K V) := do
  let entries ← match b.entries with
    | some entries => pure entries
    | none => Entries.ofList <$> Act.ofStore (loadPage b.home.store b.page)
  modify (setBlock ref (b.loaded entries))
  return entries

/-- Tells the policy of an access to a block, which is given as the access found it. -/
def touch (ref : BlockRef) (b : Block K V) : Engine K V → Engine K V :=
  if b.tracked then hitPage b.home.policy (b.pageOf ref) else addPage b.home.policy (b.pageOf ref)

end PagedMap.Engine
