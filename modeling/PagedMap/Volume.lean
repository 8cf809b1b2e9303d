import PagedMap.Error

/-!
# A volume of files

A volume is what a file system holds under one root: directories, and files with their bytes, each
at a path.  The root is a directory and is not listed.  Every operation either does what it says or
names the cause why it cannot and changes nothing.
-/

namespace PagedMap

/-- The names that lead from the root to a file or a directory. -/
abbrev Path : Type := List String

/-- What stands at a path. -/
inductive Node where
  | directory
  | file (bytes : List UInt8)
  deriving DecidableEq

/-- The files and directories below a root, each path once. -/
structure Volume where
  nodes : List (Path × Node) := []
  deriving DecidableEq

namespace Volume

/-- What stands at a path, if anything. -/
def node? (v : Volume) : Path → Option Node
  | [] => some .directory
  | path => (v.nodes.find? fun n => n.1 = path).map (·.2)

/-- Puts a node at a path, whatever stood there. -/
def put (v : Volume) (path : Path) (node : Node) : Volume :=
  ⟨(path, node) :: v.nodes.filter fun n => n.1 ≠ path⟩

/-- Leaves nothing at a path. -/
def erase (v : Volume) (path : Path) : Volume := ⟨v.nodes.filter fun n => n.1 ≠ path⟩

theorem node?_put {v : Volume} {path : Path} {node : Node} (h : path ≠ []) (p : Path) :
    (v.put path node).node? p = if p = path then some node else v.node? p := by
  match p with
  | [] => simp [node?, Ne.symm h]
  | name :: rest =>
    by_cases heq : name :: rest = path
    · simp [node?, put, ← heq]
    · simp only [node?, put, List.find?_cons, Ne.symm heq, decide_false, if_neg heq,
        List.find?_filter]
      congr 2
      funext n
      by_cases hn : n.1 = name :: rest <;> simp_all

/-- The directories that a path leads through, the root first, and the path itself. -/
def prefixes : Path → List Path
  | [] => [[]]
  | name :: rest => [] :: (prefixes rest).map (name :: ·)

/-- Whether a path leads through directories only; the cause why not is that of the first name
that is none. -/
def reach (v : Volume) (path : Path) : Except IoCause Unit :=
  match (prefixes path).dropLast.find? fun p => v.node? p ≠ some .directory with
  | none => .ok ()
  | some p => if v.node? p = none then .error .notFound else .error .notADirectory

/-- The bytes of the file at a path. -/
def read (v : Volume) (path : Path) : Except IoCause (List UInt8) := do
  v.reach path
  match v.node? path with
  | none => .error .notFound
  | some .directory => .error .isDirectory
  | some (.file bytes) => .ok bytes

/-- Writes a file at a path, in place of the file that stood there. -/
def write (v : Volume) (path : Path) (bytes : List UInt8) : Except IoCause Volume := do
  v.reach path
  match v.node? path with
  | some .directory => .error .isDirectory
  | _ => .ok (v.put path (.file bytes))

/-- Moves the file at a path to another one, in place of the file that stood there. -/
def rename (v : Volume) (source target : Path) : Except IoCause Volume := do
  let bytes ← v.read source
  v.reach target
  match v.node? target with
  | some .directory => .error .isDirectory
  | _ => .ok ((v.erase source).put target (.file bytes))

/-- Deletes the file at a path. -/
def delete (v : Volume) (path : Path) : Except IoCause Volume := do
  let _ ← v.read path
  return v.erase path

/-- Makes the directory at a path and every directory that leads to it, where there are none. -/
def makeDirectory (v : Volume) (path : Path) : Except IoCause Volume :=
  match (prefixes path).find? fun p => (v.node? p).any (· ≠ .directory) with
  | some p => if p = path then .error .alreadyExists else .error .notADirectory
  | none =>
    .ok ((prefixes path).foldl (fun v p => if v.node? p = none then v.put p .directory else v) v)

/-- The names in the directory at a path, in no particular order, with what stands there. -/
def list (v : Volume) (path : Path) : List (String × Node) :=
  v.nodes.filterMap fun n =>
    match n.1.getLast? with
    | some name => if n.1.dropLast = path then some (name, n.2) else none
    | none => none

end Volume

end PagedMap
