import NetworkAnalysis.Command.World

/-!
# Trees of files

A tree of files in memory, in which a session runs without a machine. Each place below the root holds
nothing, a folder, a file, a device or a link to another place; the root itself is a folder. A path is
followed name by name, and what stands at a name matters only once the folder around it is reached, so the
first name that cannot be followed decides what is wrong with a path.
-/

namespace NetworkAnalysis.Command

/-- A place in a tree: the names that lead to it from the root. -/
abbrev Place := List String

/-- A device, which does not keep what is written to it. -/
inductive Device where
  /-- Takes everything. -/
  | void
  /-- Has no room for anything. -/
  | full
  /-- Shows what is written. -/
  | screen
  /-- Has nothing behind it, so that it cannot be opened. -/
  | absent
deriving DecidableEq, Repr

/-- What stands at a place. -/
inductive Entry where
  /-- A folder. -/
  | folder
  /-- A file with its text. -/
  | file (text : String)
  /-- A device. -/
  | device (device : Device)
  /-- A link to a place that holds no link. -/
  | link (place : Place)
deriving DecidableEq, Repr

/-- A path, as it is written. -/
structure Path where
  /-- Whether it starts at the root. -/
  isAbsolute : Bool
  /-- The names on the way. -/
  names : List String
  /-- Whether a slash stands behind the last name. -/
  isClosed : Bool
deriving DecidableEq, Repr

namespace Path

/-- The most bytes of a path. -/
def maxBytes : Nat := 4095

/-- The most bytes of a name. -/
def maxNameBytes : Nat := 255

/-- The path that a text stands for. Several slashes in a row count as one. -/
def ofText (text : String) : Path where
  isAbsolute := text.startsWith "/"
  names := (text.splitOn "/").filter (· ≠ "")
  isClosed := text.endsWith "/"

end Path

/-- A tree of files. -/
structure FileTree where
  /-- What stands at the places below the root, the latest entry of a place in front. -/
  entries : List (Place × Entry)
  /-- The folder in which relative paths start. -/
  home : Place
  /-- What was shown on the screen. -/
  shown : String := ""
deriving Repr

namespace FileTree

/-- What stands at a place. -/
def lookup? (t : FileTree) (place : Place) : Option Entry :=
  if place.isEmpty then some .folder else t.entries.lookup place

/-- The tree with an entry at a place, in place of what stood there. -/
def put (t : FileTree) (place : Place) (entry : Entry) : FileTree :=
  { t with entries := (place, entry) :: t.entries }

/-- The tree with a folder at a place, unless something stands there. -/
def putFolder (t : FileTree) (place : Place) : FileTree :=
  if (t.lookup? place).isSome then t else t.put place .folder

/-- The place that stands for another one: the end of the link, where there is one. -/
def follow (t : FileTree) (place : Place) : Place :=
  match t.lookup? place with
  | some (.link place) => place
  | _ => place

/-- The folder that a name leads to from a folder. -/
def step (t : FileTree) (here : Place) (name : String) : Except FileFault Place :=
  if name = "." then .ok here
  else if name = ".." then .ok here.dropLast
  else if Path.maxNameBytes < name.utf8ByteSize then .error .nameTooLong
  else
    let place := t.follow (here ++ [name])
    match t.lookup? place with
    | none => .error .missing
    | some .folder => .ok place
    | some _ => .error .notFolder

/-- Where a path leads. -/
inductive Target where
  /-- To a folder that is there, by a path that does not say its name. -/
  | folder
  /-- To a name in a folder that is there, which may hold anything, or nothing, at that name. -/
  | named (place : Place)
deriving DecidableEq, Repr

/-- Where a path leads. All names but the last have to lead to folders; the last may be free. -/
def target (t : FileTree) (path : Path) : Except FileFault Target :=
  match path.names.getLast? with
  | none => .ok .folder
  | some last => do
    let around ← path.names.dropLast.foldlM t.step (if path.isAbsolute then [] else t.home)
    if last = "." ∨ last = ".." then pure .folder
    else pure (.named (t.follow (around ++ [last])))

/-- Refuses a name that is too long. -/
def checkName (place : Place) : Except FileFault Unit :=
  if place.getLast?.any fun name => Path.maxNameBytes < name.utf8ByteSize then .error .nameTooLong
  else .ok ()

/-- Refuses a text that is too long for a path. -/
def checkPath (text : String) : Except FileFault Path :=
  if Path.maxBytes < text.utf8ByteSize then .error .nameTooLong else .ok (.ofText text)

/-- Reads a file. A slash behind the path asks for a folder. -/
def read (t : FileTree) (text : String) : Except FileFault String := do
  let path ← checkPath text
  match ← t.target path with
  | .folder => throw .folder
  | .named place => do
    checkName place
    match t.lookup? place with
    | none => throw .missing
    | some .folder => throw .folder
    | some entry =>
      if path.isClosed then throw .notFolder
      else
        match entry with
        | .file text => pure text
        | .device .absent => throw .noDevice
        | _ => pure ""

/-- The place that writing a file begins with, and what is there. No file can have a slash behind its
path. -/
def create (t : FileTree) (text : String) : Except FileFault (Place × Option Entry) := do
  let path ← checkPath text
  match ← t.target path with
  | .folder => throw .folder
  | .named place => do
    if path.isClosed then throw .folder
    else
      checkName place
      match t.lookup? place with
      | some .folder => throw .folder
      | some (.device .absent) => throw .noDevice
      | entry => pure (place, entry)

/-- The tree after a text was written to a file. A device without room refuses the first bytes that are
handed to it. -/
def write (t : FileTree) (path text : String) : Except WriteFault FileTree := do
  let (place, entry) ← (t.create path).mapError fun reason => { step := .create, reason }
  match entry with
  | some (.device .void) => pure t
  | some (.device .screen) => pure { t with shown := t.shown ++ text }
  | some (.device .full) =>
    if bufferSize < text.utf8ByteSize then throw { step := .write, reason := .noRoom }
    else if text.isEmpty then pure t
    else throw { step := .flush, reason := .noRoom }
  | _ => pure (t.put place (.file text))

/-- The world of a tree, in which time stands still and one worker is offered. -/
def world : World (StateM FileTree) where
  read path := fun t => ((t.read path).map String.toUTF8, t)
  write path text := fun t =>
    match t.write path text with
    | .ok t => (.ok (), t)
    | .error fault => (.error fault, t)
  clock := pure 0
  processors := pure 1

/-- The folders that every machine has. -/
def systemFolders : List Place :=
  ["bin", "boot", "dev", "etc", "home", "lib", "lib64", "media", "mnt", "opt", "proc", "root", "run",
     "sbin", "srv", "sys", "tmp", "usr", "var"].map (fun name => [name])
    ++ [["usr", "bin"], ["usr", "lib"], ["usr", "local"], ["usr", "share"], ["var", "lib"],
      ["var", "log"], ["var", "tmp"], ["dev", "shm"], ["proc", "self"], ["proc", "self", "fd"]]

/-- The devices that every machine has. No terminal is connected. -/
def devices : List (Place × Device) :=
  [(["dev", "null"], .void), (["dev", "zero"], .void), (["dev", "random"], .void),
   (["dev", "urandom"], .void), (["dev", "full"], .full), (["dev", "tty"], .absent),
   (["proc", "self", "fd", "0"], .void), (["proc", "self", "fd", "1"], .screen),
   (["proc", "self", "fd", "2"], .void)]

/-- The links that every machine has, for a session in the folder `home`. -/
def links (home : Place) : List (Place × Place) :=
  [(["dev", "fd"], ["proc", "self", "fd"]), (["dev", "stdin"], ["proc", "self", "fd", "0"]),
   (["dev", "stdout"], ["proc", "self", "fd", "1"]), (["dev", "stderr"], ["proc", "self", "fd", "2"]),
   (["proc", "self", "cwd"], home), (["proc", "self", "root"], [])]

/-- The tree of a machine whose folder for the session is empty. There is a slash in the name of that
folder, so that no path can say it. -/
def machine : FileTree :=
  let home : Place := ["tmp", "/"]
  let entries :=
    (systemFolders ++ [home]).map (fun place => (place, Entry.folder))
      ++ devices.map (fun (place, device) => (place, Entry.device device))
      ++ (links home).map fun (place, target) => (place, Entry.link target)
  entries.foldl (fun t (place, entry) => t.put place entry) { entries := [], home }

/-- The folder that a name stands for when files are laid out. A folder that is not there is made. -/
def enter (state : FileTree × Place) (name : String) : FileTree × Place :=
  let (t, here) := state
  if name = "." then (t, here)
  else if name = ".." then (t, here.dropLast)
  else (t.putFolder (here ++ [name]), here ++ [name])

/-- The tree with a file at a path, and with the folders on the way to it. -/
def addFile (t : FileTree) (name text : String) : FileTree :=
  let path := Path.ofText name
  match path.names.getLast? with
  | none => t
  | some last =>
    let (t, around) := path.names.dropLast.foldl enter (t, if path.isAbsolute then [] else t.home)
    t.put (around ++ [last]) (.file text)

end FileTree

end NetworkAnalysis.Command
